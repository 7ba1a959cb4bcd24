import Mathlib.Tactic
import Precond.Proofs.Elaboration

/-!
# Types as the solver sees them

The solver looks into the bodies of quantifiers, so `Expr.Typed` types them too, and it knows no
slices. An expression is `Expr.Ready` if it could be typed at all: it has no slice, its quantifiers
carry settled types, and so do its free variables. What the type checker accepts is typed where it
is ready (`Expr.Elaborates.typed`).

A substitution that captures nothing keeps types (`Expr.Typed.subst`). If its result is ready, then
so is the replacement where the variable occurs, and the expression too as soon as the variable has
a settled type (`Expr.Ready.of_subst`).
-/

namespace Precond

open Checking

namespace Expr

mutual

/-- Whether a slice occurs in an expression. -/
def hasSlice : Expr → Bool
  | .var _ | .lit _ => false
  | .binary _ l r | .subscript l r => hasSlice l || hasSlice r
  | .unary _ e | .forAll _ _ e => hasSlice e
  | .slice .. | .sliceFrom .. => true
  | .call _ args => hasSliceAll args

/-- Whether a slice occurs in a list of expressions. -/
def hasSliceAll : List Expr → Bool
  | [] => false
  | e :: es => hasSlice e || hasSliceAll es

end

/-- The type of an expression without slices, with the bodies of its quantifiers. -/
inductive Typed : TypeEnv → Expr → Ty → Prop
  | var {G x ty} (hx : G.get? x = some ty) (hty : ty.isConcrete = true) : Typed G (.var x) ty
  | int {G n} : Typed G (.lit (.int n)) .int
  | bool {G b} : Typed G (.lit (.bool b)) .bool
  | binary {G op l r} (hl : Typed G l op.types.1) (hr : Typed G r op.types.1) :
      Typed G (.binary op l r) op.types.2
  | unary {G op e} (he : Typed G e op.types.1) : Typed G (.unary op e) op.types.2
  | element {G b i elem} (hb : Typed G b (.array elem)) (hi : Typed G i .int) :
      Typed G (.subscript b i) elem
  | len {G f l elem} (hf : f = "len") (hl : Typed G l (.array elem)) : Typed G (.call f [l]) .int
  | store {G f l i v elem} (hf : f = "store") (hl : Typed G l (.array elem)) (hi : Typed G i .int)
      (hv : Typed G v elem) : Typed G (.call f [l, i, v]) (.array elem)
  | forAll {G x ty body} (hty : ty.isConcrete = true) (hbody : Typed (G.insert x ty) body .bool) :
      Typed G (.forAll x (some ty) body) .bool

namespace Typed

variable {G : TypeEnv} {e : Expr} {ty : Ty}

/-- The type of an expression is settled. -/
theorem isConcrete (h : Typed G e ty) : ty.isConcrete = true := by
  induction h with
  | var _ hty => exact hty
  | binary | unary => exact (Op.isConcrete_types _).2
  | element _ _ ih _ => exact ih
  | store _ _ _ _ ih _ _ => exact ih
  | _ => rfl

theorem isSlice (h : Typed G e ty) : e.isSlice = false := by
  cases h <;> rfl

/-- An expression has one type at most. -/
theorem unique {ty' : Ty} (h : Typed G e ty) (h' : Typed G e ty') : ty = ty' := by
  induction h generalizing ty' with
  | var hx _ =>
    cases h' with
    | var hx' _ => exact Option.some.inj (hx.symm.trans hx')
  | element _ _ ih _ =>
    cases h' with
    | element hb _ => exact Ty.array.inj (ih hb)
  | store _ _ _ _ ih _ _ =>
    cases h' with
    | store _ hl _ _ => exact ih hl
  | _ =>
    cases h'
    rfl

/-- The type depends on the types of the free variables only. -/
theorem congr {G' : TypeEnv} (h : Typed G e ty) (hG : ∀ x ∈ e.freeVars, G.get? x = G'.get? x) :
    Typed G' e ty := by
  induction h generalizing G' with
  | var hx hty => exact .var ((hG _ (by simp [freeVars])).symm.trans hx) hty
  | int => exact .int
  | bool => exact .bool
  | binary _ _ ihl ihr =>
    rw [freeVars, List.forall_mem_append] at hG
    exact .binary (ihl hG.1) (ihr hG.2)
  | unary _ ih => exact .unary (ih hG)
  | element _ _ ihb ihi =>
    rw [freeVars, List.forall_mem_append] at hG
    exact .element (ihb hG.1) (ihi hG.2)
  | len hf _ ih =>
    simp only [freeVars, freeVarsAll, List.append_nil] at hG
    exact .len hf (ih hG)
  | store hf _ _ _ ihl ihi ihv =>
    simp only [freeVars, freeVarsAll, List.append_nil, List.forall_mem_append] at hG
    exact .store hf (ihl hG.1) (ihi hG.2.1) (ihv hG.2.2)
  | @forAll G x t body hty _ ih =>
    refine .forAll hty (ih fun y hy => ?_)
    by_cases hyx : y = x
    · simp [hyx]
    · simpa [hyx] using hG y (by simp [freeVars, hy, hyx])

/-- A variable that is not free may have any type. -/
theorem insert_of_notMem {y : String} {t : Ty} (h : Typed G e ty) (hy : y ∉ e.freeVars) :
    Typed (G.insert y t) e ty := by
  refine h.congr fun x hx => ?_
  have hxy : x ≠ y := by
    rintro rfl
    exact hy hx
  simp [hxy]

/-- A substitution that captures nothing keeps the type. -/
theorem of_substitutes {x : String} {r e' : Expr} (hsubst : Substitutes x r e e')
    (h : Typed G e ty) (hcapture : ∀ y ∈ e.binders, y ∉ r.freeVars)
    (hx : x ∈ e.freeVars → ∃ t, G.get? x = some t ∧ Typed G r t) : Typed G e' ty := by
  induction hsubst generalizing G ty with
  | here =>
    cases h with
    | var hy _ =>
      obtain ⟨t, ht, hr⟩ := hx (by simp [freeVars])
      obtain rfl := Option.some.inj (ht.symm.trans hy)
      exact hr
  | other | lit | bound => exact h
  | binary _ _ iha ihb =>
    simp only [binders, List.forall_mem_append] at hcapture
    simp only [freeVars, List.mem_append] at hx
    cases h with
    | binary ha hb =>
      exact .binary (iha ha hcapture.1 fun h => hx (Or.inl h))
        (ihb hb hcapture.2 fun h => hx (Or.inr h))
  | unary _ ih =>
    cases h with
    | unary ha => exact .unary (ih ha hcapture hx)
  | subscript _ _ iha ihi =>
    simp only [binders, List.forall_mem_append] at hcapture
    simp only [freeVars, List.mem_append] at hx
    cases h with
    | element ha hi =>
      exact .element (iha ha hcapture.1 fun h => hx (Or.inl h))
        (ihi hi hcapture.2 fun h => hx (Or.inr h))
  | slice | sliceFrom => cases h
  | call hlength _ ih =>
    cases h with
    | @len _ _ l _ hf hl =>
      obtain ⟨l', rfl⟩ := List.length_eq_one_iff.1 hlength.symm
      simp only [binders, bindersAll, List.append_nil] at hcapture
      simp only [freeVars, freeVarsAll, List.append_nil] at hx
      exact .len hf (ih (l, l') (by simp) hl hcapture hx)
    | @store _ _ l i v _ hf hl hi hv =>
      obtain ⟨l', i', v', rfl⟩ := List.length_eq_three.1 hlength.symm
      simp only [binders, bindersAll, List.append_nil, List.forall_mem_append] at hcapture
      simp only [freeVars, freeVarsAll, List.append_nil, List.mem_append] at hx
      exact .store hf (ih (l, l') (by simp) hl hcapture.1 fun h => hx (Or.inl h))
        (ih (i, i') (by simp) hi hcapture.2.1 fun h => hx (Or.inr (Or.inl h)))
        (ih (v, v') (by simp) hv hcapture.2.2 fun h => hx (Or.inr (Or.inr h)))
  | kept hyx hyr _ ih =>
    simp only [binders, List.forall_mem_cons] at hcapture
    cases h with
    | forAll hty hbody =>
      refine .forAll hty (ih hbody hcapture.2 fun hmem => ?_)
      obtain ⟨s, hs, hr⟩ := hx (by simp [freeVars, hmem, hyx.symm])
      exact ⟨s, by simpa [hyx.symm] using hs, hr.insert_of_notMem hyr⟩
  | renamed _ hyr => exact absurd hyr (hcapture _ List.mem_cons_self)

/-- A substitution without captures keeps the type, if what is put in has the type of the variable.
-/
theorem subst {x : String} {r : Expr} (h : Typed G e ty)
    (hcapture : ∀ y ∈ e.binders, y ∉ r.freeVars)
    (hx : x ∈ e.freeVars → ∃ t, G.get? x = some t ∧ Typed G r t) : Typed G (e.subst x r) ty :=
  h.of_substitutes (substitutes_subst e x r) hcapture hx

theorem and {l r : Expr} (hl : Typed G l .bool) (hr : Typed G r .bool) :
    Typed G (.and l r) .bool := @Typed.binary G .and l r hl hr

theorem implies {l r : Expr} (hl : Typed G l .bool) (hr : Typed G r .bool) :
    Typed G (.implies l r) .bool := @Typed.binary G .implies l r hl hr

theorem not (he : Typed G e .bool) : Typed G (.not e) .bool := @Typed.unary G .not e he

theorem foldl_and {es : List Expr} (he : Typed G e .bool) (hes : ∀ d ∈ es, Typed G d .bool) :
    Typed G (es.foldl Expr.and e) .bool := by
  induction es generalizing e with
  | nil => exact he
  | cons d es ih =>
    rw [List.forall_mem_cons] at hes
    exact ih (he.and hes.1) hes.2

/-- A conjunction of truth values is one. -/
theorem conjoin {es : List Expr} (h : ∀ e ∈ es, Typed G e .bool) : Typed G (conjoin es) .bool := by
  cases es with
  | nil => exact .bool
  | cons e es =>
    rw [List.forall_mem_cons] at h
    exact foldl_and h.1 h.2

end Typed

/-! ## Expressions that can be typed -/

/-- The expression has no slice, and its quantifiers and its free variables have settled types. -/
@[mk_iff]
structure Ready (G : TypeEnv) (e : Expr) : Prop where
  hasSlice : e.hasSlice = false
  annotated : e.annotated = true
  settled : G.Settles e.freeVars

section Ready

variable {G : TypeEnv} {e l r b i u s : Expr} {x : String}

/-- A variable is ready if its type is settled. -/
@[simp] theorem ready_var :
    Ready G (.var x) ↔ ∃ ty, G.get? x = some ty ∧ ty.isConcrete = true := by
  simp [ready_iff, hasSlice, annotated, TypeEnv.Settles, freeVars]

@[simp] theorem ready_lit {v : Literal} : Ready G (.lit v) := ⟨rfl, rfl, fun _ hx => nomatch hx⟩

/-- An operation is ready if its operands are. -/
@[simp] theorem ready_binary {op : Op} : Ready G (.binary op l r) ↔ Ready G l ∧ Ready G r := by
  simp only [ready_iff, hasSlice, annotated, freeVars, TypeEnv.settles_append,
    Bool.or_eq_false_iff, Bool.and_eq_true]
  tauto

@[simp] theorem ready_unary {op : Op} : Ready G (.unary op e) ↔ Ready G e :=
  ⟨fun h => ⟨h.hasSlice, h.annotated, h.settled⟩, fun h => ⟨h.hasSlice, h.annotated, h.settled⟩⟩

/-- A subscript is ready if an operation with its parts as operands is. -/
@[simp] theorem ready_subscript : Ready G (.subscript b i) ↔ Ready G b ∧ Ready G i := by
  have hadd : Ready G (.subscript b i) ↔ Ready G (.binary .add b i) :=
    ⟨fun h => ⟨h.hasSlice, h.annotated, h.settled⟩, fun h => ⟨h.hasSlice, h.annotated, h.settled⟩⟩
  exact hadd.trans ready_binary

@[simp] theorem not_ready_slice : ¬Ready G (.slice l u s) := fun h => Bool.noConfusion h.hasSlice

@[simp] theorem not_ready_sliceFrom : ¬Ready G (.sliceFrom l s) := fun h =>
  Bool.noConfusion h.hasSlice

theorem hasSliceAll_eq_false {es : List Expr} :
    hasSliceAll es = false ↔ ∀ e ∈ es, e.hasSlice = false := by
  induction es with
  | nil => simp [hasSliceAll]
  | cons e es ih => simp [hasSliceAll, ih]

theorem annotatedAll_eq_true {es : List Expr} :
    annotatedAll es = true ↔ ∀ e ∈ es, e.annotated = true := by
  induction es with
  | nil => simp [annotatedAll]
  | cons e es ih => simp [annotatedAll, ih]

/-- A call is ready if its arguments are. -/
@[simp] theorem ready_call {f : String} {args : List Expr} :
    Ready G (.call f args) ↔ ∀ a ∈ args, Ready G a := by
  constructor
  · intro h a ha
    exact ⟨hasSliceAll_eq_false.1 h.hasSlice a ha, annotatedAll_eq_true.1 h.annotated a ha,
      fun x hx => h.settled x (mem_freeVarsAll.2 ⟨a, ha, hx⟩)⟩
  · intro h
    refine ⟨hasSliceAll_eq_false.2 fun a ha => (h a ha).hasSlice,
      annotatedAll_eq_true.2 fun a ha => (h a ha).annotated, fun x hx => ?_⟩
    obtain ⟨a, ha, hx⟩ := mem_freeVarsAll.1 hx
    exact (h a ha).settled x hx

/-- A quantifier is ready if it has a settled type and its body is ready with that. -/
@[simp] theorem ready_forAll {ty : Option Ty} :
    Ready G (.forAll x ty e) ↔ ∃ t, ty = some t ∧ t.isConcrete = true ∧ Ready (G.insert x t) e := by
  simp only [ready_iff, hasSlice, annotated, freeVars, TypeEnv.Settles, Bool.and_eq_true,
    List.mem_filter, decide_eq_true_eq, Bindings.get?_insert]
  cases ty with
  | none => simp
  | some t =>
    simp only [Option.any_some, Option.some.injEq, exists_eq_left']
    grind

/-- Being ready depends on the types of the free variables only. -/
theorem Ready.congr {G' : TypeEnv} (h : Ready G e)
    (hG : ∀ x ∈ e.freeVars, G.get? x = G'.get? x) : Ready G' e :=
  ⟨h.hasSlice, h.annotated, fun x hx => hG x hx ▸ h.settled x hx⟩

theorem Ready.isSlice (h : Ready G e) : e.isSlice = false := by
  cases e with
  | slice | sliceFrom => exact Bool.noConfusion h.hasSlice
  | _ => rfl

/-- What is typed is ready. -/
theorem Typed.ready {ty : Ty} (h : Typed G e ty) : Ready G e := by
  induction h with
  | var hx hty => exact ready_var.2 ⟨_, hx, hty⟩
  | int | bool => exact ready_lit
  | binary _ _ ihl ihr => exact ready_binary.2 ⟨ihl, ihr⟩
  | unary _ ih => exact ready_unary.2 ih
  | element _ _ ihb ihi => exact ready_subscript.2 ⟨ihb, ihi⟩
  | len _ _ ih => exact ready_call.2 (by simpa using ih)
  | store _ _ _ _ ihl ihi ihv => exact ready_call.2 (by simpa using ⟨ihl, ihi, ihv⟩)
  | forAll hty _ ih => exact ready_forAll.2 ⟨_, rfl, hty, ih⟩

/-- The members of a conjunction that is ready are ready. -/
theorem Ready.conjoin {es : List Expr} (h : Ready G (conjoin es)) : ∀ e ∈ es, Ready G e := by
  have hfoldl : ∀ (es : List Expr) (e : Expr), Ready G (es.foldl and e) →
      Ready G e ∧ ∀ d ∈ es, Ready G d := by
    intro es
    induction es with
    | nil => exact fun e he => ⟨he, List.forall_mem_nil _⟩
    | cons d es ih =>
      intro e h
      obtain ⟨hed, hes⟩ := ih _ h
      obtain ⟨he, hd⟩ := ready_binary.1 hed
      exact ⟨he, List.forall_mem_cons.2 ⟨hd, hes⟩⟩
  cases es with
  | nil => exact List.forall_mem_nil _
  | cons e es => exact List.forall_mem_cons.2 (hfoldl es e h)

/-- What is ready after a substitution was so before, if the variable has a settled type, and the
replacement is ready if it was used. -/
theorem Ready.of_substitutes {e' : Expr} (hsubst : Substitutes x r e e')
    (hcapture : ∀ y ∈ e.binders, y ∉ r.freeVars) (h : Ready G e') :
    (x ∈ e.freeVars → Ready G r) ∧ ((x ∈ e.freeVars → G.Settles [x]) → Ready G e) := by
  induction hsubst generalizing G with
  | here => simp [h, freeVars, TypeEnv.Settles]
  | other hyx => simp [freeVars, hyx.symm, h]
  | lit => simp [freeVars]
  | binary _ _ iha ihb | subscript _ _ iha ihb =>
    simp only [binders, List.forall_mem_append] at hcapture
    simp only [ready_binary, ready_subscript] at h
    have ha := iha hcapture.1 h.1
    have hb := ihb hcapture.2 h.2
    simp only [freeVars, List.mem_append, ready_binary, ready_subscript]
    exact ⟨fun hx => hx.elim ha.1 hb.1,
      fun hx => ⟨ha.2 fun hmem => hx (Or.inl hmem), hb.2 fun hmem => hx (Or.inr hmem)⟩⟩
  | unary _ ih =>
    simp only [ready_unary] at h
    simpa only [freeVars, ready_unary] using ih hcapture h
  | slice => exact absurd h not_ready_slice
  | sliceFrom => exact absurd h not_ready_sliceFrom
  | @call x r _ args _ hlength _ ih =>
    simp only [binders, bindersAll_eq_flatMap, List.forall_mem_flatMap] at hcapture
    have hargs : ∀ a ∈ args, (x ∈ a.freeVars → Ready G r) ∧
        ((x ∈ a.freeVars → G.Settles [x]) → Ready G a) := by
      intro a ha
      obtain ⟨a', ha', hp⟩ := exists_mem_zip_left hlength ha
      exact ih _ hp (hcapture a ha) (ready_call.1 h a' ha')
    simp only [freeVars, mem_freeVarsAll, ready_call]
    refine ⟨?_, fun hx a ha => (hargs a ha).2 fun hmem => hx ⟨a, ha, hmem⟩⟩
    rintro ⟨a, ha, hx⟩
    exact (hargs a ha).1 hx
  | bound => simp [freeVars, h]
  | @kept _ _ y _ _ _ hyx hyr _ ih =>
    simp only [binders, List.forall_mem_cons] at hcapture
    obtain ⟨t, rfl, ht, hbody⟩ := ready_forAll.1 h
    have hbody' := ih hcapture.2 hbody
    simp only [freeVars, List.mem_filter, decide_eq_true_eq, ready_forAll]
    refine ⟨fun hx => (hbody'.1 hx.1).congr fun z hz => ?_,
      fun hx => ⟨t, rfl, ht, hbody'.2 fun hmem => ?_⟩⟩
    · have hzy : z ≠ y := by
        rintro rfl
        exact hyr hz
      simp [hzy]
    · simpa [TypeEnv.Settles, hyx.symm] using hx ⟨hmem, hyx.symm⟩
  | renamed _ hyr => exact absurd hyr (hcapture _ List.mem_cons_self)

/-- If the result of a substitution without captures is ready, so is what was put in, and so was the
expression if the variable has a settled type. -/
theorem Ready.of_subst (hcapture : ∀ y ∈ e.binders, y ∉ r.freeVars) (h : Ready G (e.subst x r)) :
    (x ∈ e.freeVars → Ready G r) ∧ ((x ∈ e.freeVars → G.Settles [x]) → Ready G e) :=
  h.of_substitutes (substitutes_subst e x r) hcapture

end Ready

end Expr

/-! ## What the checker accepts is typed -/

/-- Settled types are kept under a binder of the same type. -/
theorem Checking.Keeps.insert {G env : TypeEnv} (h : Keeps G env) (x : String) (ty : Ty) :
    Keeps (G.insert x ty) (env.insert x ty) := by
  intro y t hy ht
  rw [Bindings.get?_insert] at hy ⊢
  split_ifs at hy ⊢
  · exact hy
  · exact h y t hy ht

open Precond.Expr in
/-- An expression that is checked where the settled types of `G` are known is typed in `G`, if it is
ready there. -/
theorem Expr.Elaborates.typed {G : TypeEnv} {m : Mode} {e e' : Expr} {env env' : TypeEnv}
    (h : Elaborates m e env e' env') (hG : Keeps G env) (he : Ready G e) :
    ∃ ty, Typed G e ty ∧ m.Fits ty := by
  induction h generalizing G with
  | int => exact ⟨_, .int, rfl⟩
  | bool => exact ⟨_, .bool, rfl⟩
  | varFound hx =>
    obtain ⟨t, ht, hconcrete⟩ := ready_var.1 he
    exact ⟨t, .var ht hconcrete, Option.some.inj ((hG _ t ht hconcrete).symm.trans hx)⟩
  | varChecked hx hfits =>
    obtain ⟨t, ht, hconcrete⟩ := ready_var.1 he
    obtain rfl := Option.some.inj ((hG _ t ht hconcrete).symm.trans hx)
    exact ⟨t, .var ht hconcrete, hfits⟩
  | @binary op _ _ _ _ _ _ _ hl _ ihl ihr =>
    obtain ⟨hel, her⟩ := ready_binary.1 he
    obtain ⟨tl, htl, hfl⟩ := ihl hG hel
    obtain ⟨tr, htr, hfr⟩ := ihr (hG.trans hl.grows.keeps) her
    obtain rfl := Ty.eq_of_compatible htl.isConcrete op.isConcrete_types.1 hfl
    obtain rfl := Ty.eq_of_compatible htr.isConcrete op.isConcrete_types.1 hfr
    exact ⟨_, .binary htl htr, rfl⟩
  | @unary op _ _ _ _ _ ih =>
    obtain ⟨t, ht, hf⟩ := ih hG (ready_unary.1 he)
    obtain rfl := Ty.eq_of_compatible ht.isConcrete op.isConcrete_types.1 hf
    exact ⟨_, .unary ht, rfl⟩
  | part hslice =>
    have hindex := (ready_subscript.1 he).2.isSlice
    simp [hslice] at hindex
  | elementFound _ hi _ ihi ihb =>
    obtain ⟨heb, hei⟩ := ready_subscript.1 he
    obtain ⟨ti, hti, hfi⟩ := ihi hG hei
    obtain ⟨_, htb, rfl⟩ := ihb (hG.trans hi.grows.keeps) heb
    obtain rfl := Ty.eq_of_compatible hti.isConcrete rfl hfi
    exact ⟨_, .element htb hti, rfl⟩
  | elementOpen _ hi _ _ ihb =>
    obtain ⟨_, htb, rfl⟩ := ihb (hG.trans hi.grows.keeps) (ready_subscript.1 he).1
    exact absurd htb.isConcrete (by simp [Ty.isConcrete])
  | elementChecked _ hi _ ihi ihb =>
    obtain ⟨heb, hei⟩ := ready_subscript.1 he
    obtain ⟨ti, hti, hfi⟩ := ihi hG hei
    obtain ⟨tb, htb, hfb⟩ := ihb (hG.trans hi.grows.keeps) heb
    obtain rfl := Ty.eq_of_compatible hti.isConcrete rfl hfi
    obtain ⟨elem, rfl, helem⟩ := Ty.exists_array_of_compatible htb.isConcrete hfb
    exact ⟨elem, .element htb hti, helem⟩
  | slice => exact absurd he not_ready_slice
  | sliceFrom => exact absurd he not_ready_sliceFrom
  | elements hlist _ helem ihlist ihty =>
    obtain ⟨tl, htl, hfl⟩ := ihlist hG he
    obtain ⟨t, rfl, -⟩ := Ty.exists_array_of_compatible htl.isConcrete hfl
    have hsame := hlist.eq_of_annotated he.annotated
    subst hsame
    obtain ⟨_, hty, rfl⟩ := ihty (hG.trans hlist.grows.keeps) he
    obtain rfl := htl.unique hty
    rcases helem with helem | ⟨hopen, -⟩
    · exact ⟨_, htl, helem⟩
    · exact absurd rfl (hopen t)
  | len _ _ ihlist _ =>
    obtain ⟨_, htl, rfl⟩ := ihlist hG (ready_call.1 he _ (by simp))
    exact ⟨_, .len rfl htl, rfl⟩
  | storeSettled hlist hconcrete hl hi _ ihlist _ ihi ihv =>
    simp only [ready_call, List.forall_mem_cons] at he
    obtain ⟨_, htl, rfl⟩ := ihlist hG he.1
    have hGl := hG.trans (hlist.grows.trans hl.grows).keeps
    obtain ⟨ti, hti, hfi⟩ := ihi hGl he.2.1
    obtain ⟨tv, htv, hfv⟩ := ihv (hGl.trans hi.grows.keeps) he.2.2.1
    obtain rfl := Ty.eq_of_compatible hti.isConcrete rfl hfi
    obtain rfl := Ty.eq_of_compatible htv.isConcrete hconcrete hfv
    exact ⟨_, .store rfl htl hti htv, rfl⟩
  | storeOpen _ hopen _ _ _ _ ihlist =>
    simp only [ready_call, List.forall_mem_cons] at he
    obtain ⟨_, htl, rfl⟩ := ihlist hG he.1
    exact absurd htl.isConcrete (by simp [Ty.isConcrete, hopen])
  | forAll hbody _ _ _ ih =>
    obtain ⟨t, rfl, hconcrete, hready⟩ := ready_forAll.1 he
    obtain ⟨tb, htb, hfb⟩ := ih (hG.insert _ t) hready
    obtain rfl := Ty.eq_of_compatible htb.isConcrete rfl hfb
    exact ⟨_, .forAll hconcrete htb, rfl⟩
  | compared _ hfits ih =>
    obtain ⟨_, ht, rfl⟩ := ih hG he
    exact ⟨_, ht, hfits⟩

end Precond
