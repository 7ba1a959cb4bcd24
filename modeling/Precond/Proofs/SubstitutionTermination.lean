import Mathlib.Data.Finset.Card
import Mathlib.Tactic
import Precond.Proofs.PrimedNames

/-!
# Substitution ends

`Expr.subst` bounds its recursion by the height of the expression. `Expr.Substitutes x r e e'` is
substitution without a bound: it says that the calls end with `e'`.

`Expr.Calls` relates a substitution to those that it calls for. At a binder that would capture, the
second call is not on a part of the expression but on what the first call gave. Yet that has the
shape of the body: putting one variable for another changes nothing but names
(`Expr.Substitutes.shape_eq`), even though binders inside may have to be renamed as well. So the
height goes down with every call (`Expr.Calls.height_lt`), there is no endless chain of calls, and
every substitution ends (`Expr.exists_substitutes`). What it ends with is what `Expr.subst` gives
(`Expr.substitutes_iff`).

Hence what holds of substitution is shown by induction on `Expr.Substitutes`, case by case of what
substitution does and without a bound (`Expr.substitutes_substWithin`, `Expr.substitutes_subst`).
-/

namespace Precond.Expr

/-! ## The search for a binder -/

/-- The name is free in one of two expressions. -/
def FreeInEither (r body : Expr) (w : String) : Prop := w ∈ r.freeVars ∨ w ∈ body.freeVars

/-- A new name for a binder is found among the first candidates, at most one more than the two
expressions have free variables. -/
theorem finds_primed (r body : Expr) (y : String) :
    ∃ k ≤ r.freeVars.toFinset.card + body.freeVars.toFinset.card + 1,
      Name.Finds (FreeInEither r body) y k (Name.primed (r.freeVars ++ body.freeVars) y) := by
  obtain ⟨k, hk, hfinds⟩ := Name.finds_primed (r.freeVars ++ body.freeVars) y
  have hunion : (r.freeVars ++ body.freeVars).toFinset.card ≤
      r.freeVars.toFinset.card + body.freeVars.toFinset.card := by
    rw [List.toFinset_append]
    exact Finset.card_union_le _ _
  simp only [List.mem_append] at hfinds
  exact ⟨k, by omega, hfinds⟩

/-! ## Substitution call by call -/

/-- Substitution of `r` for `x` in an expression ends with another one. -/
inductive Substitutes : String → Expr → Expr → Expr → Prop
  | here {x r} : Substitutes x r (.var x) r
  | other {x r y} (h : y ≠ x) : Substitutes x r (.var y) (.var y)
  | lit {x r v} : Substitutes x r (.lit v) (.lit v)
  | binary {x r op a a' b b'} (ha : Substitutes x r a a') (hb : Substitutes x r b b') :
      Substitutes x r (.binary op a b) (.binary op a' b')
  | unary {x r op a a'} (ha : Substitutes x r a a') :
      Substitutes x r (.unary op a) (.unary op a')
  | subscript {x r a a' i i'} (ha : Substitutes x r a a') (hi : Substitutes x r i i') :
      Substitutes x r (.subscript a i) (.subscript a' i')
  | slice {x r l l' u u' s s'} (hl : Substitutes x r l l') (hu : Substitutes x r u u')
      (hs : Substitutes x r s s') : Substitutes x r (.slice l u s) (.slice l' u' s')
  | sliceFrom {x r l l' s s'} (hl : Substitutes x r l l') (hs : Substitutes x r s s') :
      Substitutes x r (.sliceFrom l s) (.sliceFrom l' s')
  | call {x r f args args'} (hlength : args.length = args'.length)
      (h : ∀ p ∈ args.zip args', Substitutes x r p.1 p.2) :
      Substitutes x r (.call f args) (.call f args')
  | bound {x r ty body} : Substitutes x r (.forAll x ty body) (.forAll x ty body)
  | kept {x r y ty body body'} (hyx : y ≠ x) (hyr : y ∉ r.freeVars)
      (h : Substitutes x r body body') : Substitutes x r (.forAll y ty body) (.forAll y ty body')
  | renamed {x r y ty body k z renamed body'} (hyx : y ≠ x) (hyr : y ∈ r.freeVars)
      (hz : Name.Finds (FreeInEither r body) y k z) (hrename : Substitutes y (.var z) body renamed)
      (h : Substitutes x r renamed body') :
      Substitutes x r (.forAll y ty body) (.forAll z ty body')

/-! ## Shapes -/

mutual

/-- The expression without the names of its variables. -/
def shape : Expr → Expr
  | .var _ => .var ""
  | .lit v => .lit v
  | .binary op a b => .binary op (shape a) (shape b)
  | .unary op a => .unary op (shape a)
  | .subscript a i => .subscript (shape a) (shape i)
  | .slice l u s => .slice (shape l) (shape u) (shape s)
  | .sliceFrom l s => .sliceFrom (shape l) (shape s)
  | .call f args => .call f (shapeAll args)
  | .forAll _ ty body => .forAll "" ty (shape body)

/-- The expressions of a list without the names of their variables. -/
def shapeAll : List Expr → List Expr
  | [] => []
  | e :: es => shape e :: shapeAll es

end

theorem shapeAll_eq_map (es : List Expr) : shapeAll es = es.map shape := by
  induction es with
  | nil => rfl
  | cons e es ih => rw [shapeAll, ih, List.map_cons]

mutual

/-- Names do not count for the height. -/
theorem height_shape (e : Expr) : e.shape.height = e.height := by
  match e with
  | .var _ | .lit _ => rfl
  | .binary _ a b | .subscript a b | .sliceFrom a b =>
    simp only [shape, height, height_shape a, height_shape b]
  | .unary _ a => simp only [shape, height, height_shape a]
  | .slice l u s => simp only [shape, height, height_shape l, height_shape u, height_shape s]
  | .call _ args => simp only [shape, height, heightAll_shapeAll args]
  | .forAll _ _ body => simp only [shape, height, height_shape body]

theorem heightAll_shapeAll (es : List Expr) : heightAll (shapeAll es) = heightAll es := by
  match es with
  | [] => rfl
  | e :: es => simp only [shapeAll, heightAll, height_shape e, heightAll_shapeAll es]

end

theorem map_eq_map_of_zip {β : Type*} {es es' : List Expr} {f g : Expr → β}
    (hlength : es.length = es'.length) (h : ∀ p ∈ es.zip es', f p.1 = g p.2) :
    es.map f = es'.map g := by
  rw [← List.forall₂_eq_eq_eq, List.forall₂_map_left_iff, List.forall₂_map_right_iff]
  exact List.forall₂_iff_zip.2 ⟨hlength, fun hp => h _ hp⟩

theorem exists_mem_zip_left {e : Expr} {es es' : List Expr} (hlength : es.length = es'.length)
    (h : e ∈ es) : ∃ e' ∈ es', (e, e') ∈ es.zip es' := by
  rw [← List.map_fst_zip hlength.le] at h
  obtain ⟨⟨_, e'⟩, hp, rfl⟩ := List.mem_map.1 h
  exact ⟨e', (List.of_mem_zip hp).2, hp⟩

theorem exists_mem_zip_right {e' : Expr} {es es' : List Expr} (hlength : es.length = es'.length)
    (h : e' ∈ es') : ∃ e ∈ es, (e, e') ∈ es.zip es' := by
  rw [← List.map_snd_zip hlength.ge] at h
  obtain ⟨⟨e, _⟩, hp, rfl⟩ := List.mem_map.1 h
  exact ⟨e, (List.of_mem_zip hp).1, hp⟩

/-- Putting one variable for another changes nothing but names. -/
theorem Substitutes.shape_eq {x c : String} {e e' : Expr} (h : Substitutes x (.var c) e e') :
    e'.shape = e.shape := by
  generalize hr : Expr.var c = r at h
  induction h generalizing c with
  | here => rw [← hr, shape, shape]
  | other | lit | bound => rfl
  | binary _ _ iha ihb | subscript _ _ iha ihb | sliceFrom _ _ iha ihb =>
    simp only [shape, iha hr, ihb hr]
  | unary _ iha => simp only [shape, iha hr]
  | slice _ _ _ ihl ihu ihs => simp only [shape, ihl hr, ihu hr, ihs hr]
  | call hlength _ ih =>
    simp only [shape, shapeAll_eq_map]
    rw [map_eq_map_of_zip hlength fun p hp => (ih p hp hr).symm]
  | kept _ _ _ ih => simp only [shape, ih hr]
  | renamed _ _ _ _ _ ihrename ih => simp only [shape, ih hr, ihrename rfl]

/-- Renaming a variable does not change the height. -/
theorem Substitutes.height_eq {x c : String} {e e' : Expr} (h : Substitutes x (.var c) e e') :
    e'.height = e.height := by
  rw [← height_shape, h.shape_eq, height_shape]

/-! ## Calls -/

theorem height_le_heightAll {e : Expr} : ∀ {es : List Expr}, e ∈ es → e.height ≤ heightAll es
  | d :: es, h => by
    rcases List.mem_cons.mp h with rfl | h
    · exact Nat.le_max_left _ _
    · exact (height_le_heightAll h).trans (Nat.le_max_right _ _)

/-- What is to be put for which variable in which expression. -/
structure Task where
  /-- The variable. -/
  name : String
  /-- What is put for it. -/
  replacement : Expr
  /-- The expression. -/
  expr : Expr

/-- The operands of an operation or a call. -/
def operands : Expr → List Expr
  | .binary _ a b | .subscript a b | .sliceFrom a b => [a, b]
  | .unary _ a => [a]
  | .slice l u s => [l, u, s]
  | .call _ args => args
  | .var _ | .lit _ | .forAll .. => []

/-- The first substitution is one that the second one calls for. -/
inductive Calls : Task → Task → Prop
  | operand {x r e a} (h : a ∈ e.operands) : Calls ⟨x, r, a⟩ ⟨x, r, e⟩
  | body {x r y ty body} (hyx : y ≠ x) (hyr : y ∉ r.freeVars) :
      Calls ⟨x, r, body⟩ ⟨x, r, .forAll y ty body⟩
  | rename {x r y ty body k z} (hyx : y ≠ x) (hyr : y ∈ r.freeVars)
      (hz : Name.Finds (FreeInEither r body) y k z) :
      Calls ⟨y, .var z, body⟩ ⟨x, r, .forAll y ty body⟩
  | renamed {x r y ty body k z renamed} (hyx : y ≠ x) (hyr : y ∈ r.freeVars)
      (hz : Name.Finds (FreeInEither r body) y k z)
      (hrename : Substitutes y (.var z) body renamed) :
      Calls ⟨x, r, renamed⟩ ⟨x, r, .forAll y ty body⟩

/-- The operands of an expression are lower than it. -/
theorem height_lt_of_mem_operands {a e : Expr} (h : a ∈ e.operands) : a.height < e.height := by
  cases e with
  | var | lit | forAll => simp [operands] at h
  | unary _ b =>
    obtain rfl : a = b := by simpa [operands] using h
    exact Nat.lt_succ_self _
  | binary _ b c | subscript b c | sliceFrom b c =>
    simp only [operands, List.mem_cons, List.not_mem_nil, or_false] at h
    rw [height]
    rcases h with rfl | rfl <;> omega
  | slice l u s =>
    simp only [operands, List.mem_cons, List.not_mem_nil, or_false] at h
    rw [height]
    rcases h with rfl | rfl | rfl <;> omega
  | call f args => exact Nat.lt_succ_of_le (height_le_heightAll h)

/-- Each substitution that is called for is in a lower expression. -/
theorem Calls.height_lt {t t' : Task} (h : Calls t t') : t.expr.height < t'.expr.height := by
  cases h with
  | operand h => exact height_lt_of_mem_operands h
  | body | rename => exact Nat.lt_succ_self _
  | renamed _ _ _ hrename => exact hrename.height_eq.trans_lt (Nat.lt_succ_self _)

/-- There is no endless chain of calls. -/
theorem wellFounded_calls : WellFounded Calls :=
  Subrelation.wf Calls.height_lt (measure fun t : Task => t.expr.height).wf

theorem exists_zip {R : Expr → Expr → Prop} {es : List Expr} (h : ∀ e ∈ es, ∃ e', R e e') :
    ∃ es', es.length = es'.length ∧ ∀ p ∈ es.zip es', R p.1 p.2 := by
  induction es with
  | nil => exact ⟨[], rfl, by simp⟩
  | cons e es ih =>
    obtain ⟨⟨e', he⟩, hes⟩ := List.forall_mem_cons.1 h
    obtain ⟨es', hlength, hzip⟩ := ih hes
    exact ⟨e' :: es', by simp [hlength], List.forall_mem_cons.2 ⟨he, hzip⟩⟩

/-- A substitution ends, since those that it calls for do. -/
theorem exists_substitutes (t : Task) :
    ∃ e', Substitutes t.name t.replacement t.expr e' := by
  induction t using wellFounded_calls.induction with
  | _ t ih =>
    obtain ⟨x, r, e⟩ := t
    have hoperands : ∀ a ∈ e.operands, ∃ a', Substitutes x r a a' := fun a ha =>
      ih ⟨x, r, a⟩ (.operand ha)
    cases e with
    | var y =>
      by_cases hyx : y = x
      · subst hyx
        exact ⟨r, .here⟩
      · exact ⟨.var y, .other hyx⟩
    | lit v => exact ⟨.lit v, .lit⟩
    | binary op a b =>
      obtain ⟨a', ha⟩ := hoperands a (by simp [operands])
      obtain ⟨b', hb⟩ := hoperands b (by simp [operands])
      exact ⟨_, .binary ha hb⟩
    | unary op a =>
      obtain ⟨a', ha⟩ := hoperands a (by simp [operands])
      exact ⟨_, .unary ha⟩
    | subscript a i =>
      obtain ⟨a', ha⟩ := hoperands a (by simp [operands])
      obtain ⟨i', hi⟩ := hoperands i (by simp [operands])
      exact ⟨_, .subscript ha hi⟩
    | slice l u s =>
      obtain ⟨l', hl⟩ := hoperands l (by simp [operands])
      obtain ⟨u', hu⟩ := hoperands u (by simp [operands])
      obtain ⟨s', hs⟩ := hoperands s (by simp [operands])
      exact ⟨_, .slice hl hu hs⟩
    | sliceFrom l s =>
      obtain ⟨l', hl⟩ := hoperands l (by simp [operands])
      obtain ⟨s', hs⟩ := hoperands s (by simp [operands])
      exact ⟨_, .sliceFrom hl hs⟩
    | call f args =>
      obtain ⟨args', hlength, hargs⟩ := exists_zip hoperands
      exact ⟨_, .call hlength hargs⟩
    | forAll y ty body =>
      by_cases hyx : y = x
      · subst hyx
        exact ⟨_, .bound⟩
      by_cases hyr : y ∈ r.freeVars
      · obtain ⟨k, -, hz⟩ := finds_primed r body y
        obtain ⟨renamed, hrename⟩ := ih _ (.rename hyx hyr hz)
        obtain ⟨body', hbody⟩ := ih _ (.renamed hyx hyr hz hrename)
        exact ⟨_, .renamed hyx hyr hz hrename hbody⟩
      · obtain ⟨body', hbody⟩ := ih _ (.body hyx hyr)
        exact ⟨_, .kept hyx hyr hbody⟩

/-- Where the height is within the bound, the bounded recursion gives what the calls end with. -/
theorem Substitutes.eq_substWithin {n : Nat} {x : String} {r e e' : Expr}
    (h : Substitutes x r e e') (hn : e.height ≤ n) : e' = substWithin n x r e := by
  induction n generalizing x r e e' with
  | zero => cases e <;> simp [height] at hn
  | succ n ih =>
    cases h with
    | here => rw [substWithin, if_pos rfl]
    | other hyx => rw [substWithin, if_neg hyx]
    | lit => rfl
    | binary ha hb | subscript ha hb | sliceFrom ha hb =>
      simp only [height, Nat.add_le_add_iff_right, Nat.max_le] at hn
      rw [substWithin, ← ih ha hn.1, ← ih hb hn.2]
    | unary ha =>
      simp only [height, Nat.add_le_add_iff_right] at hn
      rw [substWithin, ← ih ha hn]
    | slice hl hu hs =>
      simp only [height, Nat.add_le_add_iff_right, Nat.max_le] at hn
      rw [substWithin, ← ih hl hn.1, ← ih hu hn.2.1, ← ih hs hn.2.2]
    | @call _ _ f args args' hlength hargs =>
      simp only [height, Nat.add_le_add_iff_right] at hn
      have hmap : args.map (substWithin n x r) = args'.map id := by
        refine map_eq_map_of_zip hlength fun p hp => (ih (hargs p hp) ?_).symm
        exact (height_le_heightAll (List.of_mem_zip hp).1).trans hn
      rw [substWithin, hmap, List.map_id]
    | bound => rw [substWithin, if_pos rfl]
    | kept hyx hyr hbody =>
      simp only [height, Nat.add_le_add_iff_right] at hn
      rw [substWithin, if_neg hyx, if_neg hyr, ← ih hbody hn]
    | @renamed _ _ y ty body k z renamed body' hyx hyr hz hrename hbody =>
      simp only [height, Nat.add_le_add_iff_right] at hn
      obtain ⟨_, -, hprimed⟩ := finds_primed r body y
      obtain ⟨-, rfl⟩ := hz.unique hprimed
      simp only [substWithin, if_neg hyx, if_pos hyr]
      rw [← ih hrename hn, ← ih hbody (hrename.height_eq.trans_le hn)]

/-- Substitution with enough depth follows the rules. -/
theorem substitutes_substWithin {n : Nat} {x : String} {r e : Expr} (h : e.height ≤ n) :
    Substitutes x r e (substWithin n x r e) := by
  obtain ⟨e', hsubst⟩ := exists_substitutes ⟨x, r, e⟩
  exact hsubst.eq_substWithin h ▸ hsubst

theorem substitutes_subst (e : Expr) (x : String) (r : Expr) : Substitutes x r e (e.subst x r) :=
  substitutes_substWithin le_rfl

/-- The rules give one result, which is that of the substitution. -/
theorem substitutes_iff {x : String} {r e e' : Expr} :
    Substitutes x r e e' ↔ e' = e.subst x r := by
  refine ⟨fun h => h.eq_substWithin le_rfl, ?_⟩
  rintro rfl
  exact substitutes_subst e x r

/-- Substitution ends on every input, with what `Expr.subst` gives, and there is no endless chain of
calls. The search for a binder looks at no more candidates than there are names to be avoided, and
one, and ends with a name that is none of them. Putting one variable for another keeps the shape. -/
theorem subst_terminates :
    WellFounded Calls ∧
      (∀ (x : String) (r e e' : Expr), Substitutes x r e e' ↔ e' = e.subst x r) ∧
      (∀ (r body : Expr) (y : String),
        ∃ k ≤ r.freeVars.toFinset.card + body.freeVars.toFinset.card + 1, ∃ z,
          z = Name.primed (r.freeVars ++ body.freeVars) y ∧
          Name.Finds (FreeInEither r body) y k z ∧ z ∉ r.freeVars ∧ z ∉ body.freeVars) ∧
      ∀ (e : Expr) (b c : String), (e.subst b (.var c)).shape = e.shape := by
  refine ⟨wellFounded_calls, fun _ _ _ _ => substitutes_iff, fun r body y => ?_, fun e b c => ?_⟩
  · obtain ⟨k, hk, hfinds⟩ := finds_primed r body y
    exact ⟨k, hk, _, rfl, hfinds, not_or.1 hfinds.not_taken⟩
  · exact (substitutes_iff.2 rfl).shape_eq

end Precond.Expr
