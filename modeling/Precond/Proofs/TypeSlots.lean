import Mathlib.Data.List.Forall2
import Mathlib.Tactic
import Precond.Proofs.InPlaceChecking
import Precond.Proofs.SettledTypes
import Precond.Proofs.TypePrecision

/-!
# What type checking does to the types of quantifiers

A quantifier has a place for the type of its variable. `Expr.Filled e e'` says that `e'` is `e` with
some of these places filled: a place that held a settled type holds the same one, and one that has
changed holds a settled type now.

Type checking in place says what becomes of the places when a call fails. Whatever a call comes to,
it has only filled places by then (`InPlace.filled_infer`, `InPlace.filled_check`,
`InPlace.filled_checkStmt`). An expression may be checked many times, as a whole or as a part of
another one. `Expr.ByCalls` is the relation of all expressions that such calls can lead to, in any
order and in any environments, and `Stmt.ByCalls` the one of statements; all of them only fill
places. Together with what becomes of the types of variables this says that type checking only gains
(`Checking.only_gains`).
-/

namespace Precond

open Checking

/-! ## Places -/

/-- The place is as it was, or it held no settled type and holds one now. -/
def Ty.Fills (old new : Option Ty) : Prop :=
  new = old ∨ old.any isConcrete = false ∧ new.any isConcrete = true

theorem Ty.Fills.refl (old : Option Ty) : Fills old old := .inl rfl

/-- A place that was filled stays as it is. -/
theorem Ty.Fills.trans {old mid new : Option Ty} (h : Fills old mid) (h' : Fills mid new) :
    Fills old new := by
  rcases h with rfl | ⟨hold, hmid⟩
  · exact h'
  · rcases h' with rfl | ⟨hopen, -⟩
    · exact .inr ⟨hold, hmid⟩
    · rw [hmid] at hopen
      cases hopen

theorem Ty.forall₂_fills_refl (olds : List (Option Ty)) : List.Forall₂ Fills olds olds :=
  List.forall₂_same.2 fun old _ => .refl old

theorem Ty.forall₂_fills_trans {olds mids news : List (Option Ty)}
    (h : List.Forall₂ Fills olds mids) (h' : List.Forall₂ Fills mids news) :
    List.Forall₂ Fills olds news := by
  induction h generalizing news with
  | nil => exact h'
  | cons hold _ ih =>
    cases h' with
    | cons hnew h' => exact .cons (hold.trans hnew) (ih h')

open Ty

namespace Expr

mutual

/-- The types at the quantifiers of an expression, from left to right. -/
def slots : Expr → List (Option Ty)
  | .var _ | .lit _ => []
  | .binary _ l r | .subscript l r | .sliceFrom l r => slots l ++ slots r
  | .unary _ e => slots e
  | .slice l u s => slots l ++ slots u ++ slots s
  | .call _ args => slotsAll args
  | .forAll _ ty body => ty :: slots body

/-- The types at the quantifiers of a list of expressions. -/
def slotsAll : List Expr → List (Option Ty)
  | [] => []
  | e :: es => slots e ++ slotsAll es

end

/-- One expression is the other one with places at its quantifiers filled. -/
structure Filled (e e' : Expr) : Prop where
  untyped : e'.untyped = e.untyped
  slots : List.Forall₂ Fills e.slots e'.slots

theorem Filled.refl (e : Expr) : Filled e e := ⟨rfl, forall₂_fills_refl _⟩

/-- Places may be filled one after another. -/
theorem Filled.trans {e₁ e₂ e₃ : Expr} (h : Filled e₁ e₂) (h' : Filled e₂ e₃) : Filled e₁ e₃ :=
  ⟨h'.untyped.trans h.untyped, forall₂_fills_trans h.slots h'.slots⟩

/-- The type that is found for the variable of a quantifier goes to its place, where a settled type
stays. -/
theorem fills_of_elaborates {m : Mode} {x : String} {ty : Option Ty} {found : Ty} {e e' : Expr}
    {env inner : TypeEnv} (h : Elaborates m e (env.insert x (ty.getD .unknown)) e' inner)
    (hfound : inner.get? x = some found) (hconcrete : found.isConcrete = true) :
    Fills ty (some found) := by
  cases hty : ty.any isConcrete with
  | false => exact .inr ⟨hty, hconcrete⟩
  | true =>
    obtain ⟨t, rfl, ht⟩ := (Option.any_eq_true _ _).1 hty
    have hkept := h.grows.keeps x t (by simp) ht
    exact .inl (hfound.symm.trans hkept)

section Parts

variable {op : Op} {l l' r r' u u' e e' : Expr}

/-- The places of an operation are those of its operands. -/
theorem Filled.binary (hl : Filled l l') (hr : Filled r r') :
    Filled (.binary op l r) (.binary op l' r') :=
  ⟨by simp only [Expr.untyped, hl.untyped, hr.untyped], List.rel_append hl.slots hr.slots⟩

theorem Filled.unary (he : Filled e e') : Filled (.unary op e) (.unary op e') :=
  ⟨by simp only [Expr.untyped, he.untyped], he.slots⟩

theorem Filled.subscript (hl : Filled l l') (hr : Filled r r') :
    Filled (.subscript l r) (.subscript l' r') :=
  ⟨by simp only [Expr.untyped, hl.untyped, hr.untyped], List.rel_append hl.slots hr.slots⟩

theorem Filled.slice (hl : Filled l l') (hu : Filled u u') (hr : Filled r r') :
    Filled (.slice l u r) (.slice l' u' r') :=
  ⟨by simp only [Expr.untyped, hl.untyped, hu.untyped, hr.untyped],
    List.rel_append (List.rel_append hl.slots hu.slots) hr.slots⟩

theorem Filled.sliceFrom (hl : Filled l l') (hr : Filled r r') :
    Filled (.sliceFrom l r) (.sliceFrom l' r') :=
  ⟨by simp only [Expr.untyped, hl.untyped, hr.untyped], List.rel_append hl.slots hr.slots⟩

/-- The place of a quantifier comes before those of its body. -/
theorem Filled.forAll {x : String} {ty ty' : Option Ty} (hty : Fills ty ty') (he : Filled e e') :
    Filled (.forAll x ty e) (.forAll x ty' e') :=
  ⟨by simp only [Expr.untyped, he.untyped], .cons hty he.slots⟩

/-- All members of one list are those of the other one with places at their quantifiers filled. -/
abbrev FilledAll (es es' : List Expr) : Prop := List.Forall₂ Filled es es'

theorem FilledAll.refl (es : List Expr) : FilledAll es es :=
  List.forall₂_same.2 fun e _ => .refl e

theorem FilledAll.trans {es₁ es₂ es₃ : List Expr} (h : FilledAll es₁ es₂)
    (h' : FilledAll es₂ es₃) : FilledAll es₁ es₃ := by
  induction h generalizing es₃ with
  | nil => exact h'
  | cons he _ ih =>
    cases h' with
    | cons he' h' => exact .cons (he.trans he') (ih h')

/-- Only types change in a list that is filled. -/
theorem FilledAll.untypedAll {es es' : List Expr} (h : FilledAll es es') :
    untypedAll es' = untypedAll es := by
  induction h with
  | nil => rfl
  | cons he _ ih => simp only [Expr.untypedAll, he.untyped, ih]

/-- The places of a list are those of its members, one after another. -/
theorem FilledAll.slotsAll {es es' : List Expr} (h : FilledAll es es') :
    List.Forall₂ Fills (slotsAll es) (slotsAll es') := by
  induction h with
  | nil => exact .nil
  | cons he _ ih => exact List.rel_append he.slots ih

theorem Filled.call {f : String} {args args' : List Expr} (h : FilledAll args args') :
    Filled (.call f args) (.call f args') :=
  ⟨by simp only [Expr.untyped, h.untypedAll], h.slotsAll⟩

end Parts

end Expr

/-! ## Calls on expressions -/

namespace InPlace

open Precond.Expr (Filled FilledAll)

variable {σ τ α β : Type}

/-- The computation comes to an end on the tree `t` with a result and the tree `t'`. -/
theorem gives_toChecking {c : InPlace τ α} {t t' : τ} {env env' : TypeEnv} {a : α} :
    Gives (c.toChecking t) env (a, t') env' ↔ c.run.run (env, t) = (.ok a, env', t') := by
  rw [Gives, run_toChecking]
  rcases c.run.run (env, t) with ⟨_ | b, env₁, t₁⟩ <;> constructor <;> rintro ⟨⟩ <;> rfl

/-- What follows is run after a success only. -/
theorem treeAfter_bind {P : τ → Prop} {c : InPlace τ α} {f : α → InPlace τ β} {env : TypeEnv}
    {t : τ} (hc : P (c.treeAfter env t))
    (hf : ∀ {a env'}, P ((f a).treeAfter env' (c.treeAfter env t))) :
    P ((c >>= f).treeAfter env t) := by
  rw [treeAfter] at hc ⊢
  rw [run_bind]
  rcases hrun : c.run.run (env, t) with ⟨_ | a, env', t'⟩
  · rwa [hrun] at hc
  · simpa only [treeAfter, hrun] using @hf a env'

theorem treeAfter_tree {f : τ → InPlace τ α} {env : TypeEnv} {t : τ} :
    (tree >>= f).treeAfter env t = (f t).treeAfter env t :=
  rfl

/-- A computation on a part changes that part, and is followed by others only after a success. -/
theorem treeAfter_part {P : τ → Prop} {c : InPlace σ α} {put : σ → τ} {p : σ}
    {f : α × σ → InPlace τ β} {env : TypeEnv} {t : τ} {R : σ → Prop} (hc : R (c.treeAfter env p))
    (hstop : ∀ {p'}, R p' → P (put p'))
    (hf : ∀ {a env' p'}, R p' → P ((f (a, p')).treeAfter env' (put p'))) :
    P ((part put p c >>= f).treeAfter env t) := by
  rw [treeAfter] at hc
  rw [treeAfter, run_bind, run_part]
  rcases hrun : c.run.run (env, p) with ⟨_ | a, env', p'⟩ <;> rw [hrun] at hc
  · exact hstop hc
  · exact hf hc

/-- The function fills places in the expressions that it is called on. -/
def FillsBy (f : Expr → InPlace Expr α) : Prop := ∀ e env, Filled e ((f e).treeAfter env e)

section Calls

variable {infer : Expr → InPlace Expr Ty} {check : Ty → Expr → InPlace Expr Unit}

/-- By induction on the list: checking its members fills places in them, also if it fails on the
way. -/
theorem filledAll_checkEach (hcheck : ∀ ty, FillsBy (check ty)) (tys : List Ty) (es : List Expr)
    (env : TypeEnv) : FilledAll es ((checkEach check tys es).treeAfter env es) := by
  induction es generalizing tys env with
  | nil => cases tys <;> exact .nil
  | cons e es ih =>
    cases tys with
    | nil => exact .refl _
    | cons ty tys =>
      refine treeAfter_part (hcheck ty e env) (.cons · (FilledAll.refl es)) fun {_ env' e'} he => ?_
      exact treeAfter_part (ih tys env') (.cons he ·) fun hes => .cons he hes

theorem fillsBy_elementType (hinfer : FillsBy infer) (hcheck : ∀ ty, FillsBy (check ty)) :
    FillsBy (elementType infer check) := by
  intro e env
  have he := hcheck (.array .unknown) e env
  refine treeAfter_bind he fun {_ env'} => ?_
  rw [treeAfter_tree]
  refine treeAfter_bind (he.trans (hinfer _ env')) fun {ty env''} => ?_
  cases ty <;> exact he.trans (hinfer _ env')

theorem filledAll_callElement (hinfer : FillsBy infer) (hcheck : ∀ ty, FillsBy (check ty))
    (f : String) (args : List Expr) (env : TypeEnv) :
    FilledAll args ((callElement infer check f args).treeAfter env args) := by
  cases args with
  | nil => exact .nil
  | cons list args =>
    refine treeAfter_part (fillsBy_elementType hinfer hcheck list env)
      (.cons · (FilledAll.refl args)) fun {elem env' list'} hlist => ?_
    dsimp only
    split_ifs
    · rcases args with _ | ⟨i, _ | ⟨value, _ | _⟩⟩
      case cons.cons.nil =>
        have hput {v} (hv : Filled value v) : FilledAll [list, i, value] [list', i, v] :=
          .cons hlist (.cons (.refl i) (.cons hv .nil))
        exact treeAfter_part (hinfer value env') hput hput
      all_goals exact .cons hlist (FilledAll.refl _)
    · exact .cons hlist (FilledAll.refl _)

/-- Finding the type of a call fills places in its arguments. -/
theorem filledAll_inferCall (hinfer : FillsBy infer) (hcheck : ∀ ty, FillsBy (check ty))
    (f : String) (args : List Expr) (env : TypeEnv) :
    FilledAll args ((inferCall infer check f args).treeAfter env args) := by
  unfold inferCall
  split_ifs
  · exact .refl _
  have helem := filledAll_callElement hinfer hcheck f args env
  refine treeAfter_bind helem fun {elem env'} => ?_
  cases builtinSignature? f elem with
  | none => exact helem
  | some signature =>
    dsimp only
    rw [treeAfter_tree]
    split_ifs
    · exact helem
    have hargs := filledAll_checkEach hcheck signature.1
      ((callElement infer check f args).treeAfter env args) env'
    exact treeAfter_bind (helem.trans hargs) (helem.trans hargs)

end Calls

/-- A check in place that succeeds is one of the checker. -/
theorem gives_checkWithin {depth : Nat} {ty : Ty} {e e' : Expr} {env env' : TypeEnv}
    (h : (checkWithin depth ty e).run.run (env, e) = (.ok (), env', e')) :
    Gives (Expr.checkWithin depth ty e) env e' env' := by
  have hgives := gives_toChecking.2 h
  simp only [(toChecking_within depth).2 ty e, map_eq_pure_bind, gives_bind, gives_pure,
    Prod.mk.injEq] at hgives
  obtain ⟨_, _, hgives, ⟨-, rfl⟩, rfl⟩ := hgives
  exact hgives

/-- One more level of finding types fills places. -/
theorem fillsBy_inferWithin {depth : Nat} (hinfer : FillsBy (inferWithin depth))
    (hcheck : ∀ ty, FillsBy (checkWithin depth ty)) : FillsBy (inferWithin (depth + 1)) := by
  intro e env
  cases e with
  | lit v => cases v <;> exact .refl _
  | var x => exact .refl _
  | binary op l r =>
    refine treeAfter_part (hcheck _ l env) (.binary · (.refl r)) fun {_ env' l'} hl => ?_
    exact treeAfter_part (hcheck _ r env') (.binary hl ·) fun hr => .binary hl hr
  | unary op e => exact treeAfter_part (hcheck _ e env) (.unary ·) fun he => .unary he
  | subscript base index =>
    have hfirst {i} (hi : Filled index i) : Filled (.subscript base index) (.subscript base i) :=
      .subscript (.refl base) hi
    simp only [inferWithin]
    split_ifs
    · refine treeAfter_part (hcheck .slice index env) hfirst fun {_ env' i} hi => ?_
      refine treeAfter_part (hcheck (.array .unknown) base env') (.subscript · hi)
        fun {_ env' b} hb => ?_
      have hput {b'} (hb' : Filled b b') : Filled (.subscript base index) (.subscript b' i) :=
        .subscript (hb.trans hb') hi
      exact treeAfter_part (hinfer b env') hput hput
    · refine treeAfter_part (hcheck .int index env) hfirst fun {_ env' i} hi => ?_
      refine treeAfter_part (hinfer base env') (.subscript · hi) fun {ty env' b} hb => ?_
      cases ty <;> exact .subscript hb hi
  | slice l u s =>
    refine treeAfter_part (hcheck _ l env) (.slice · (.refl u) (.refl s))
      fun {_ env' l'} hl => ?_
    refine treeAfter_part (hcheck _ u env') (.slice hl · (.refl s)) fun {_ env' u'} hu => ?_
    exact treeAfter_part (hcheck _ s env') (.slice hl hu ·) fun hs => .slice hl hu hs
  | sliceFrom l s =>
    refine treeAfter_part (hcheck _ l env) (.sliceFrom · (.refl s)) fun {_ env' l'} hl => ?_
    exact treeAfter_part (hcheck _ s env') (.sliceFrom hl ·) fun hs => .sliceFrom hl hs
  | call f args =>
    exact treeAfter_part (filledAll_inferCall hinfer hcheck f args env) (.call ·)
      fun hargs => .call hargs
  | forAll x ty body =>
    have hbody := hcheck .bool body (env.insert x (ty.getD .unknown))
    rw [treeAfter, inferWithin, run_bind, run_part, run_withBinder]
    rcases hrun : (checkWithin depth .bool body).run.run (env.insert x (ty.getD .unknown), body)
      with ⟨_ | _, inner, body'⟩ <;> rw [treeAfter, hrun] at hbody
    · exact .forAll (.refl ty) hbody
    · have hgives := gives_checkWithin hrun
      cases hfound : inner.get? x with
      | none =>
        simp only [Except.map]
        exact .forAll (.refl ty) hbody
      | some found =>
        simp only [Except.map]
        split_ifs with hconcrete
        · exact .forAll
            (Expr.fills_of_elaborates ((Expr.within_elaborates _).2 hgives) hfound hconcrete) hbody
        · exact .forAll (.refl ty) hbody

/-- One more level of checking fills places. -/
theorem fillsBy_checkWithin {depth : Nat} (hinfer : FillsBy (inferWithin depth))
    (hcheck : ∀ ty, FillsBy (checkWithin depth ty)) (expected : Ty) :
    FillsBy (checkWithin (depth + 1) expected) := by
  intro e env
  have hcompared : ∀ e : Expr, Filled e ((do
      let found ← inferWithin depth e
      onTypes (Checking.compare (← tree) expected found) : InPlace Expr Unit).treeAfter env e) :=
    fun e => treeAfter_bind (hinfer e env) (hinfer e env)
  cases e with
  | var x => exact .refl _
  | subscript base index =>
    simp only [checkWithin]
    split_ifs
    · exact hcompared _
    · refine treeAfter_part (hcheck .int index env) (.subscript (.refl base) ·)
        fun {_ env' i} hi => ?_
      exact treeAfter_part (hcheck (.array expected) base env') (.subscript · hi)
        fun hb => .subscript hb hi
  | _ => exact hcompared _

/-- At every depth places are filled and nothing else changes, by induction on it. -/
theorem fillsBy_within (depth : Nat) :
    FillsBy (inferWithin depth) ∧ ∀ ty, FillsBy (checkWithin depth ty) := by
  induction depth with
  | zero => exact ⟨fun e _ => .refl e, fun _ e _ => .refl e⟩
  | succ depth ih => exact ⟨fillsBy_inferWithin ih.1 ih.2, fillsBy_checkWithin ih.1 ih.2⟩

/-- Finding the type of an expression only fills places in it, whether it succeeds or fails. -/
theorem filled_infer : FillsBy infer := fun e => (fillsBy_within _).1 e

/-- Checking an expression only fills places in it, whether it succeeds or fails. -/
theorem filled_check (expected : Ty) : FillsBy (check expected) := fun e => (fillsBy_within _).2 _ e

end InPlace

namespace Expr

/-- Calls of the type checker, failed ones included, on the expression or on parts of it lead to the
other one. -/
inductive ByCalls : Expr → Expr → Prop
  | infer (e env) : ByCalls e ((InPlace.infer e).treeAfter env e)
  | check (expected e env) : ByCalls e ((InPlace.check expected e).treeAfter env e)
  | refl (e) : ByCalls e e
  | trans {e₁ e₂ e₃} (h : ByCalls e₁ e₂) (h' : ByCalls e₂ e₃) : ByCalls e₁ e₃
  | binary {op l l' r r'} (hl : ByCalls l l') (hr : ByCalls r r') :
      ByCalls (.binary op l r) (.binary op l' r')
  | unary {op e e'} (h : ByCalls e e') : ByCalls (.unary op e) (.unary op e')
  | subscript {b b' i i'} (hb : ByCalls b b') (hi : ByCalls i i') :
      ByCalls (.subscript b i) (.subscript b' i')
  | slice {l l' u u' s s'} (hl : ByCalls l l') (hu : ByCalls u u') (hs : ByCalls s s') :
      ByCalls (.slice l u s) (.slice l' u' s')
  | sliceFrom {l l' s s'} (hl : ByCalls l l') (hs : ByCalls s s') :
      ByCalls (.sliceFrom l s) (.sliceFrom l' s')
  | argument {f before e e' after} (h : ByCalls e e') :
      ByCalls (.call f (before ++ e :: after)) (.call f (before ++ e' :: after))
  | forAll {x ty body body'} (h : ByCalls body body') :
      ByCalls (.forAll x ty body) (.forAll x ty body')

/-- A list is filled if one of its members is. -/
theorem FilledAll.append_cons {e e' : Expr} (h : Filled e e') (before after : List Expr) :
    FilledAll (before ++ e :: after) (before ++ e' :: after) :=
  List.rel_append (FilledAll.refl before) (.cons h (FilledAll.refl after))

/-- Calls only fill places, whatever they are made on. -/
theorem ByCalls.filled {e e' : Expr} (h : ByCalls e e') : Filled e e' := by
  induction h with
  | infer e env => exact InPlace.filled_infer e env
  | check expected e env => exact InPlace.filled_check expected e env
  | refl e => exact .refl e
  | trans _ _ ih ih' => exact ih.trans ih'
  | binary _ _ ihl ihr => exact .binary ihl ihr
  | unary _ ih => exact .unary ih
  | subscript _ _ ihb ihi => exact .subscript ihb ihi
  | slice _ _ _ ihl ihu ihs => exact .slice ihl ihu ihs
  | sliceFrom _ _ ihl ihs => exact .sliceFrom ihl ihs
  | argument _ ih => exact .call (.append_cons ih _ _)
  | forAll _ ih => exact .forAll (.refl _) ih

end Expr

/-! ## Calls on statements -/

namespace Stmt

/-- The types at the quantifiers of a statement. -/
def slots : Stmt → List (Option Ty)
  | .skip | .havoc _ => []
  | .assign _ e | .assume e | .assert e => e.slots
  | .seq s t => slots s ++ slots t
  | .branch c s t => c.slots ++ slots s ++ slots t
  | .loop es c s => Expr.slotsAll es ++ c.slots ++ slots s

/-- One statement is the other one with places at its quantifiers filled. -/
structure Filled (s s' : Stmt) : Prop where
  untyped : s'.untyped = s.untyped
  slots : List.Forall₂ Fills s.slots s'.slots

theorem Filled.refl (s : Stmt) : Filled s s := ⟨rfl, forall₂_fills_refl _⟩

/-- Places of a statement may be filled one after another. -/
theorem Filled.trans {s₁ s₂ s₃ : Stmt} (h : Filled s₁ s₂) (h' : Filled s₂ s₃) : Filled s₁ s₃ :=
  ⟨h'.untyped.trans h.untyped, forall₂_fills_trans h.slots h'.slots⟩

section Parts

variable {e e' : Expr} {s s' t t' : Stmt}

theorem Filled.assign {x : String} (h : e.Filled e') : Filled (.assign x e) (.assign x e') :=
  ⟨by simp only [Stmt.untyped, h.untyped], h.slots⟩

theorem Filled.assume (h : e.Filled e') : Filled (.assume e) (.assume e') :=
  ⟨by simp only [Stmt.untyped, h.untyped], h.slots⟩

theorem Filled.assert (h : e.Filled e') : Filled (.assert e) (.assert e') :=
  ⟨by simp only [Stmt.untyped, h.untyped], h.slots⟩

theorem Filled.seq (hs : Filled s s') (ht : Filled t t') : Filled (.seq s t) (.seq s' t') :=
  ⟨by simp only [Stmt.untyped, hs.untyped, ht.untyped], List.rel_append hs.slots ht.slots⟩

theorem Filled.branch (he : e.Filled e') (hs : Filled s s') (ht : Filled t t') :
    Filled (.branch e s t) (.branch e' s' t') :=
  ⟨by simp only [Stmt.untyped, he.untyped, hs.untyped, ht.untyped],
    List.rel_append (List.rel_append he.slots hs.slots) ht.slots⟩

/-- The places of a loop are those of its invariants, its condition and its body. -/
theorem Filled.loop {es es' : List Expr} (hes : Expr.FilledAll es es') (he : e.Filled e')
    (hs : Filled s s') : Filled (.loop es e s) (.loop es' e' s') :=
  ⟨by simp only [Stmt.untyped, hes.untypedAll, he.untyped, hs.untyped],
    List.rel_append (List.rel_append hes.slotsAll he.slots) hs.slots⟩

end Parts

end Stmt

namespace InPlace

/-- Checking a list of conditions fills places in them. -/
theorem filledAll_checkAll (expected : Ty) (es : List Expr) (env : TypeEnv) :
    Expr.FilledAll es ((checkAll expected es).treeAfter env es) := by
  induction es generalizing env with
  | nil => exact .nil
  | cons e es ih =>
    refine treeAfter_part (filled_check expected e env) (.cons · (Expr.FilledAll.refl es))
      fun {_ env' e'} he => ?_
    exact treeAfter_part (ih env') (.cons he ·) fun hes => .cons he hes

/-- Checking an assignment fills places in its value. -/
theorem filled_checkAssigned (x : String) : FillsBy (checkAssigned x) := by
  intro value env
  have hvalue := filled_infer value env
  refine treeAfter_bind hvalue fun {found env'} => ?_
  refine treeAfter_bind hvalue fun {known env''} => ?_
  cases known.get? x with
  | none => exact hvalue
  | some current =>
    dsimp only
    split_ifs
    · rw [treeAfter_tree]
      have hchecked := hvalue.trans (filled_check (current.refine found) _ env'')
      exact treeAfter_bind hchecked hchecked
    · exact hvalue

/-- Checking a statement only fills places in it, whether it succeeds or fails. -/
theorem filled_checkStmt (s : Stmt) (env : TypeEnv) :
    s.Filled ((checkStmt s).treeAfter env s) := by
  induction s generalizing env with
  | skip | havoc x => exact .refl _
  | assign x value =>
    exact treeAfter_part (filled_checkAssigned x value env) (.assign ·) fun h => .assign h
  | assume cond => exact treeAfter_part (filled_check _ cond env) (.assume ·) fun h => .assume h
  | assert cond => exact treeAfter_part (filled_check _ cond env) (.assert ·) fun h => .assert h
  | seq first second ih ih' =>
    refine treeAfter_part (ih env) (.seq · (.refl second)) fun {_ env' s} hs => ?_
    exact treeAfter_part (ih' env') (.seq hs ·) fun ht => .seq hs ht
  | branch cond first second ih ih' =>
    refine treeAfter_part (filled_check _ cond env) (.branch · (.refl first) (.refl second))
      fun {_ env' c} hc => ?_
    refine treeAfter_part (ih env') (.branch hc · (.refl second)) fun {_ env' s} hs => ?_
    exact treeAfter_part (ih' env') (.branch hc hs ·) fun ht => .branch hc hs ht
  | loop invariants cond body ih =>
    refine treeAfter_part (filledAll_checkAll _ invariants env) (.loop · (.refl cond) (.refl body))
      fun {_ env' es} hes => ?_
    refine treeAfter_part (filled_check _ cond env') (.loop hes · (.refl body))
      fun {_ env' c} hc => ?_
    exact treeAfter_part (ih env') (.loop hes hc ·) fun hs => .loop hes hc hs

end InPlace

namespace Stmt

/-- Calls of the type checker, failed ones included, on the statement or on parts of it lead to the
other one. -/
inductive ByCalls : Stmt → Stmt → Prop
  | check (s env) : ByCalls s ((InPlace.checkStmt s).treeAfter env s)
  | refl (s) : ByCalls s s
  | trans {s₁ s₂ s₃} (h : ByCalls s₁ s₂) (h' : ByCalls s₂ s₃) : ByCalls s₁ s₃
  | assign {x e e'} (h : e.ByCalls e') : ByCalls (.assign x e) (.assign x e')
  | assume {e e'} (h : e.ByCalls e') : ByCalls (.assume e) (.assume e')
  | assert {e e'} (h : e.ByCalls e') : ByCalls (.assert e) (.assert e')
  | seq {s s' t t'} (hs : ByCalls s s') (ht : ByCalls t t') : ByCalls (.seq s t) (.seq s' t')
  | branch {c c' s s' t t'} (hc : c.ByCalls c') (hs : ByCalls s s') (ht : ByCalls t t') :
      ByCalls (.branch c s t) (.branch c' s' t')
  | invariant {before e e' after c s} (h : e.ByCalls e') :
      ByCalls (.loop (before ++ e :: after) c s) (.loop (before ++ e' :: after) c s)
  | loop {es c c' s s'} (hc : c.ByCalls c') (hs : ByCalls s s') :
      ByCalls (.loop es c s) (.loop es c' s')

/-- Calls only fill places, whatever they are made on. -/
theorem ByCalls.filled {s s' : Stmt} (h : ByCalls s s') : Filled s s' := by
  induction h with
  | check s env => exact InPlace.filled_checkStmt s env
  | refl s => exact .refl s
  | trans _ _ ih ih' => exact ih.trans ih'
  | assign h => exact .assign h.filled
  | assume h => exact .assume h.filled
  | assert h => exact .assert h.filled
  | seq _ _ ihs iht => exact .seq ihs iht
  | branch hc _ _ ihs iht => exact .branch hc.filled ihs iht
  | invariant h => exact .loop (.append_cons h.filled _ _) (.refl _) (.refl _)
  | loop hc _ ih => exact .loop (Expr.FilledAll.refl _) hc.filled ih

end Stmt

/-! ## Type checking gains -/

/-- Whether a call succeeds or fails, every variable keeps its type but for open parts that are
filled. Only the free variables of an expression get another type, so the variable of a quantifier
leaves nothing behind, and none is added but those that a statement writes.

Type checking in place is the same program, which also says what a failed call leaves in the tree.
Quantifiers that have settled types keep them, whatever calls are made on the expression, the
statement or parts of it. -/
theorem Checking.only_gains (e : Expr) (expected : Ty) (s : Stmt) (env : TypeEnv) :
    (TypeEnv.Gains e.freeVars [] env (e.infer.after env) ∧
      TypeEnv.Gains e.freeVars [] env ((e.check expected).after env) ∧
      TypeEnv.Gains s.typedVars s.writtenVars env (s.check.after env)) ∧
    ((InPlace.infer e).toChecking e = e.infer ∧
      (InPlace.check expected e).toChecking e = Prod.mk () <$> e.check expected ∧
      (InPlace.checkStmt s).toChecking s = Prod.mk () <$> s.check) ∧
    (∀ e', e.ByCalls e' → e.Filled e') ∧ ∀ s', s.ByCalls s' → s.Filled s' := by
  refine ⟨⟨e.gaining_infer env, e.gaining_check expected env, s.gaining_check env⟩, ?_, ?_, ?_⟩
  · exact ⟨InPlace.toChecking_infer e, InPlace.toChecking_check expected e,
      InPlace.toChecking_checkStmt s⟩
  · exact fun _ => Expr.ByCalls.filled
  · exact fun _ => Stmt.ByCalls.filled

/-- A quantifier with the type that is written at it. -/
def Expr.allAbove (ty : Option Ty) : Expr :=
  .forAll "y" ty (.binary .gt (.var "y") (.var "x"))

/-- A conjunction whose second part is no truth value. Checking it fails when the quantifier in the
first part has got its type, which stays there. -/
theorem Checking.only_gains_failed :
    let env : TypeEnv := .ofList [("x", .unknown), ("y", .bool)]
    let env' : TypeEnv := .ofList [("x", .int), ("y", .bool)]
    let e := Expr.and (.allAbove none) (.int 5)
    let e' := Expr.and (.allAbove (some .int)) (.int 5)
    ((e.check .bool).result? env = none ∧ (e.check .bool).after env = env') ∧
      TypeEnv.Gains ["x"] [] env env' ∧
      ((InPlace.check .bool e).treeAfter env e = e' ∧ e.Filled e') ∧
      (InPlace.checkStmt (.assign "z" e)).treeAfter env (.assign "z" e) = .assign "z" e' ∧
      (Stmt.assign "z" e).Filled (.assign "z" e') := by
  intro env env' e e'
  obtain ⟨⟨-, hgains, -⟩, -, hfilled, hstmt⟩ := only_gains e .bool (.assign "z" e) env
  have hafter : (e.check .bool).after env = env' := by decide +kernel
  have htree : (InPlace.check .bool e).treeAfter env e = e' := by decide +kernel
  have hassigned :
      (InPlace.checkStmt (.assign "z" e)).treeAfter env (.assign "z" e) = .assign "z" e' := by
    decide +kernel
  refine ⟨⟨by decide +kernel, hafter⟩, hafter ▸ hgains, ⟨htree, ?_⟩, hassigned, ?_⟩
  · exact htree ▸ hfilled _ (.check .bool e env)
  · exact hassigned ▸ hstmt _ (.check _ env)

end Precond
