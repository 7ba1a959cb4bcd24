import Mathlib.Tactic
import Precond.Proofs.StatementTypes

/-!
# The bound of the type checker

`Expr.inferWithin` and `Expr.checkWithin` call each other, on parts of the expression or on the
expression itself, and fail if they are called more deeply than a bound says. The bound they start
with is never reached. A part is less high than the expression, and a part that was checked before
comes back with the same height (`Expr.height_eq_of_untyped`), so twice the height is enough. Hence
no expression, statement or function is rejected for its depth (`Expr.shallow_infer`,
`Expr.shallow_check`, `Stmt.shallow_check`, `Contracted.shallow_check`).
-/

namespace Precond

/-! ## Computations that do not go too deep -/

namespace Checking

variable {α β : Type}

/-- However the computation ends, it does not end because it went too deep. -/
def Shallow (c : Checking α) : Prop := ∀ env, (c.run.run env).1 ≠ .error (.type .tooDeep none)

theorem shallow_pure (a : α) : Shallow (pure a) := fun _ h => by cases h

/-- An error of any other kind may be thrown. -/
theorem shallow_throw {e : Error} (h : e ≠ .type .tooDeep none) :
    Shallow (throw e : Checking α) := by
  intro env hthrow
  exact h (Except.error.inj hthrow)

theorem shallow_get : Shallow get := fun _ h => by cases h

theorem shallow_modify (f : TypeEnv → TypeEnv) : Shallow (modify f) := fun _ h => by cases h

/-- What follows is run after a success only. -/
theorem Shallow.bind {c : Checking α} {f : α → Checking β} (hc : Shallow c)
    (hf : ∀ {env a mid}, Gives c env a mid → Shallow (f a)) : Shallow (c >>= f) := by
  intro env
  rw [run_bind]
  rcases hrun : c.run.run env with ⟨err | a, mid⟩
  · intro h
    exact hc env (by rw [hrun, Except.error.inj h])
  · exact hf hrun mid

theorem shallow_lookup (x : String) : Shallow (lookup x) := by
  refine shallow_get.bind fun {_ known _} _ => ?_
  cases known.get? x with
  | none => exact shallow_throw (by simp)
  | some ty => exact shallow_pure ty

theorem shallow_compare (e : Expr) (expected found : Ty) :
    Shallow (compare e expected found) := by
  unfold compare
  split_ifs
  · exact shallow_pure _
  · exact shallow_throw (by simp)

/-- What is bound for a computation does not make it go deeper, since its outcome is kept as a
result. -/
theorem shallow_withBinder (x : String) (ty : Ty) (c : Checking α) :
    Shallow (withBinder x ty c) := fun _ h => by cases h

end Checking

/-! ## Expressions -/

namespace Expr

open Checking

mutual

/-- The types of quantifiers do not count for the height. -/
@[simp] theorem height_untyped (e : Expr) : e.untyped.height = e.height := by
  match e with
  | .var _ | .lit _ => simp [untyped, height]
  | .binary _ l r => simp [untyped, height, height_untyped l, height_untyped r]
  | .unary _ e => simp [untyped, height, height_untyped e]
  | .subscript b i => simp [untyped, height, height_untyped b, height_untyped i]
  | .slice l u s => simp [untyped, height, height_untyped l, height_untyped u, height_untyped s]
  | .sliceFrom l s => simp [untyped, height, height_untyped l, height_untyped s]
  | .call _ args => simp [untyped, height, heightAll_untypedAll args]
  | .forAll _ _ body => simp [untyped, height, height_untyped body]

@[simp] theorem heightAll_untypedAll (es : List Expr) :
    heightAll (untypedAll es) = heightAll es := by
  match es with
  | [] => simp [untypedAll, heightAll]
  | e :: es => simp [untypedAll, heightAll, height_untyped e, heightAll_untypedAll es]

end

/-- The types at quantifiers do not count for the height. -/
theorem height_eq_of_untyped {e e' : Expr} (h : e'.untyped = e.untyped) : e'.height = e.height := by
  rw [← height_untyped e', h, height_untyped]

section Calls

variable {infer : Expr → Checking (Ty × Expr)} {check : Ty → Expr → Checking Expr} {n : Nat}

/-- The members of a list are checked at the depth of the highest one. -/
theorem shallow_checkEach (hcheck : ∀ ty e, e.height ≤ n → Shallow (check ty e)) {tys : List Ty}
    {es : List Expr} (hes : heightAll es ≤ n) : Shallow (checkEach check tys es) := by
  induction es generalizing tys with
  | nil => cases tys <;> exact shallow_pure _
  | cons e es ih =>
    cases tys with
    | nil => exact shallow_pure _
    | cons ty tys =>
      obtain ⟨he, hes⟩ := max_le_iff.1 hes
      exact (hcheck ty e he).bind fun _ => (ih hes).bind fun _ => shallow_pure _

theorem shallow_elementType (hinfer : ∀ e, e.height ≤ n → Shallow (infer e))
    (hcheck : ∀ ty e, e.height ≤ n → Shallow (check ty e)) (hrules : ChecksByRules check) {e : Expr}
    (he : e.height ≤ n) : Shallow (elementType infer check e) := by
  refine (hcheck _ e he).bind fun {_ e₁ _} h₁ => ?_
  have he₁ := (height_eq_of_untyped (hrules h₁).untyped).trans_le he
  refine (hinfer e₁ he₁).bind fun {_ r _} _ => ?_
  obtain ⟨ty, e₂⟩ := r
  cases ty <;> exact shallow_pure _

theorem shallow_callElement (hinfer : ∀ e, e.height ≤ n → Shallow (infer e))
    (hcheck : ∀ ty e, e.height ≤ n → Shallow (check ty e)) (hrules : ChecksByRules check)
    (f : String) {args : List Expr} (hargs : heightAll args ≤ n) :
    Shallow (callElement infer check f args) := by
  cases args with
  | nil => exact shallow_pure _
  | cons list args =>
    obtain ⟨hlist, hargs⟩ := max_le_iff.1 hargs
    refine (shallow_elementType hinfer hcheck hrules hlist).bind fun {_ r _} _ => ?_
    obtain ⟨elem, list'⟩ := r
    dsimp only
    split_ifs
    · rcases args with _ | ⟨i, _ | ⟨value, _ | _⟩⟩
      case cons.cons.nil =>
        simp only [heightAll, max_le_iff] at hargs
        exact (hinfer value hargs.2.1).bind fun _ => shallow_pure _
      all_goals exact shallow_pure _
    · exact shallow_pure _

/-- Finding the type of a call does not go too deep if looking at its arguments does not. -/
theorem shallow_inferCall (hinfer : ∀ e, e.height ≤ n → Shallow (infer e))
    (hcheck : ∀ ty e, e.height ≤ n → Shallow (check ty e)) (hinfers : InfersByRules infer)
    (hchecks : ChecksByRules check) (f : String) {args : List Expr} (hargs : heightAll args ≤ n) :
    Shallow (inferCall infer check f args) := by
  unfold inferCall
  split_ifs
  · exact (shallow_throw (by simp)).bind fun h => absurd h not_gives_throw
  refine (shallow_callElement hinfer hcheck hchecks f hargs).bind fun {_ r _} helem => ?_
  obtain ⟨elem, args'⟩ := r
  have hargs' : heightAll args' ≤ n := by
    rwa [← heightAll_untypedAll args', untypedAll_of_callElement hinfers hchecks helem,
      heightAll_untypedAll]
  dsimp only
  split
  · exact shallow_throw (by simp)
  · split_ifs
    · exact (shallow_throw (by simp)).bind fun h => absurd h not_gives_throw
    · exact (shallow_checkEach hcheck hargs').bind fun _ => shallow_pure _

end Calls

/-- One more level is enough to find the type of an expression, if those below are enough for its
parts. -/
theorem shallow_inferWithin {depth : Nat}
    (hinfer : ∀ e, 2 * e.height ≤ depth + 1 → Shallow (inferWithin depth e))
    (hcheck : ∀ ty e, 2 * e.height ≤ depth → Shallow (checkWithin depth ty e)) {e : Expr}
    (he : 2 * e.height ≤ depth + 2) : Shallow (inferWithin (depth + 1) e) := by
  obtain ⟨hinfers, hchecks⟩ := within_elaborates depth
  cases e with
  | lit v => cases v <;> exact shallow_pure _
  | var x => exact (shallow_lookup x).bind fun _ => shallow_pure _
  | binary op l r =>
    rw [height] at he
    refine (hcheck _ l (by omega)).bind fun _ => ?_
    exact (hcheck _ r (by omega)).bind fun _ => shallow_pure _
  | unary op e =>
    rw [height] at he
    exact (hcheck _ e (by omega)).bind fun _ => shallow_pure _
  | subscript base index =>
    rw [height] at he
    simp only [inferWithin]
    split_ifs
    · refine (hcheck _ index (by omega)).bind fun _ => ?_
      refine (hcheck _ base (by omega)).bind fun {_ base' _} hbase => ?_
      have hheight := height_eq_of_untyped (hchecks hbase).untyped
      exact (hinfer base' (by omega)).bind fun _ => shallow_pure _
    · refine (hcheck _ index (by omega)).bind fun _ => ?_
      refine (hinfer base (by omega)).bind fun {_ r _} _ => ?_
      obtain ⟨ty, base'⟩ := r
      cases ty
      case array | unknown => exact shallow_pure _
      all_goals exact shallow_throw (by simp)
  | slice l u s =>
    rw [height] at he
    refine (hcheck _ l (by omega)).bind fun _ => (hcheck _ u (by omega)).bind fun _ => ?_
    exact (hcheck _ s (by omega)).bind fun _ => shallow_pure _
  | sliceFrom l s =>
    rw [height] at he
    refine (hcheck _ l (by omega)).bind fun _ => ?_
    exact (hcheck _ s (by omega)).bind fun _ => shallow_pure _
  | call f args =>
    rw [height] at he
    have hcall := shallow_inferCall (n := heightAll args) (fun e h => hinfer e (by omega))
      (fun ty e h => hcheck ty e (by omega)) hinfers hchecks f le_rfl
    exact hcall.bind fun _ => shallow_pure _
  | forAll x ty body =>
    rw [height] at he
    have hbody := hcheck .bool body (by omega)
    refine (shallow_withBinder x _ _).bind fun {env r env'} hbinder => ?_
    obtain ⟨result, found⟩ := r
    obtain ⟨inner, hinner, -, -⟩ := gives_withBinder hbinder
    dsimp only
    split
    · -- a failure inside the binder is one of the body
      refine shallow_throw fun h => hbody (env.insert x (ty.getD .unknown)) ?_
      rw [hinner, h]
    · split_ifs
      · exact shallow_pure _
      · exact shallow_throw (by simp)
    · exact shallow_throw (by simp)

/-- Checking an expression may take one more level than finding its type. -/
theorem shallow_checkWithin {depth : Nat}
    (hinfer : ∀ e, 2 * e.height ≤ depth + 1 → Shallow (inferWithin depth e))
    (hcheck : ∀ ty e, 2 * e.height ≤ depth → Shallow (checkWithin depth ty e)) (expected : Ty)
    {e : Expr} (he : 2 * e.height ≤ depth + 1) :
    Shallow (checkWithin (depth + 1) expected e) := by
  have hcompared : Shallow (do
      let result ← inferWithin depth e
      Checking.compare result.2 expected result.1
      return result.2) :=
    (hinfer e he).bind fun _ => (shallow_compare _ _ _).bind fun _ => shallow_pure _
  cases e with
  | var x =>
    refine (shallow_lookup x).bind fun _ => (shallow_compare _ _ _).bind fun _ => ?_
    exact (shallow_modify _).bind fun _ => shallow_pure _
  | subscript base index =>
    simp only [checkWithin]
    split_ifs
    · exact hcompared
    · rw [height] at he
      refine (hcheck _ index (by omega)).bind fun _ => ?_
      exact (hcheck _ base (by omega)).bind fun _ => shallow_pure _
  | _ => exact hcompared

theorem height_pos (e : Expr) : 0 < e.height := by
  cases e <;> simp [height]

/-- Twice the height is depth enough for a check, and finding a type takes one call less. -/
theorem shallow_within (depth : Nat) :
    (∀ e, 2 * e.height ≤ depth + 1 → Shallow (inferWithin depth e)) ∧
      ∀ ty e, 2 * e.height ≤ depth → Shallow (checkWithin depth ty e) := by
  induction depth with
  | zero =>
    constructor
    · intro e he
      have := e.height_pos
      omega
    · intro ty e he
      have := e.height_pos
      omega
  | succ depth ih =>
    exact ⟨fun _ => shallow_inferWithin ih.1 ih.2, fun _ _ => shallow_checkWithin ih.1 ih.2 _⟩

/-- No expression is too deep for its type to be found. -/
theorem shallow_infer (e : Expr) : Shallow e.infer :=
  (shallow_within _).1 e (by simp only [checkDepth]; omega)

/-- No expression is too deep to be checked. -/
theorem shallow_check (expected : Ty) (e : Expr) : Shallow (e.check expected) :=
  (shallow_within _).2 expected e (by simp only [checkDepth]; omega)

/-- A list of assertions is checked without going too deep. -/
theorem shallow_checkAll (expected : Ty) (es : List Expr) : Shallow (checkAll expected es) := by
  induction es with
  | nil => exact shallow_pure _
  | cons e es ih =>
    exact (shallow_check expected e).bind fun _ => ih.bind fun _ => shallow_pure _

theorem shallow_checkAssigned (x : String) (value : Expr) : Shallow (value.checkAssigned x) := by
  refine (shallow_infer value).bind fun {_ r _} _ => ?_
  obtain ⟨found, value'⟩ := r
  refine shallow_get.bind fun {_ known _} _ => ?_
  dsimp only
  split
  · exact (shallow_modify _).bind fun _ => shallow_pure _
  · split_ifs
    · refine (shallow_check _ value').bind fun _ => ?_
      exact (shallow_modify _).bind fun _ => shallow_pure _
    · exact shallow_throw (by simp)

end Expr

/-! ## Statements and functions -/

open Checking

/-- No statement is too deep to be checked. -/
theorem Stmt.shallow_check (s : Stmt) : Shallow s.check := by
  induction s with
  | skip => exact shallow_pure _
  | havoc x => exact (shallow_modify _).bind fun _ => shallow_pure _
  | assign x e => exact (Expr.shallow_checkAssigned x e).bind fun _ => shallow_pure _
  | assume e | assert e => exact (Expr.shallow_check .bool e).bind fun _ => shallow_pure _
  | seq s t ihs iht => exact ihs.bind fun _ => iht.bind fun _ => shallow_pure _
  | branch c s t ihs iht =>
    refine (Expr.shallow_check .bool c).bind fun _ => ?_
    exact ihs.bind fun _ => iht.bind fun _ => shallow_pure _
  | loop es c s ih =>
    refine (Expr.shallow_checkAll .bool es).bind fun _ => ?_
    exact (Expr.shallow_check .bool c).bind fun _ => ih.bind fun _ => shallow_pure _

theorem Contracted.shallow_checkOnce (f : Contracted) : Shallow f.checkOnce := by
  refine (Expr.shallow_checkAll .bool f.requires).bind fun _ => ?_
  refine f.body.shallow_check.bind fun _ => ?_
  exact (Expr.shallow_checkAll .bool f.ensures).bind fun _ => shallow_pure _

/-- Several passes over a function do not go too deep. -/
theorem Contracted.shallow_checkPasses (passes : Nat) (f : Contracted) :
    Shallow (f.checkPasses passes) := by
  induction passes generalizing f with
  | zero => exact shallow_pure _
  | succ passes ih =>
    refine shallow_get.bind fun _ => f.shallow_checkOnce.bind fun {_ f' _} _ => ?_
    refine shallow_get.bind fun _ => ?_
    split_ifs
    · exact shallow_pure _
    · exact ih f'

/-- No function is too deep to be checked. -/
theorem Contracted.shallow_check (f : Contracted) : Shallow f.check :=
  f.shallow_checkPasses maxPasses

end Precond
