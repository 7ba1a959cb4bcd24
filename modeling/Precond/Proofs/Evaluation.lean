import Mathlib.Tactic
import Precond.Exec.Run
import Precond.Proofs.Substitution

/-!
# What evaluation depends on

Facts about `Exec.eval`, the evaluation of a run, which stops at the first operation that is not
defined. A subscript whose index is no slice evaluates its two parts (`Exec.eval_subscript`), and so
does an operator that needs both of its operands (`Exec.eval_binary`). The connectives look at their
right operand only if the left one does not settle the answer; what they come to is said through
`Exec.holds`, the truth value of an expression.

`Exec.eval_subst` is the substitution law of runs: if the replacement has a value, the substituted
expression comes to what the expression comes to in the store with that value, errors included. It
needs nothing of the names, since a quantifier has no value in a run, whatever its body.
-/

namespace Precond

/-- Whether an operator needs both of its operands. -/
def Op.isStrict : Op → Bool
  | .and | .or | .implies => false
  | _ => true

namespace Exec

variable {σ : Store}

/-! ## Equations -/

/-- An operator that needs both operands gets both. -/
theorem eval_binary {op : Op} (hop : op.isStrict = true) (l r : Expr) :
    eval σ (.binary op l r) = (do
      let a ← eval σ l
      let b ← eval σ r
      applyBinary op a b) := by
  cases op with
  | and | or | implies => simp [Op.isStrict] at hop
  | _ => rfl

/-- An element is read from a list, at a number that has to be in range. -/
theorem eval_subscript {index : Expr} (hindex : index.isSlice = false) (base : Expr) :
    eval σ (.subscript base index) = (do
      let items ← (← eval σ base).asList
      let i ← (← eval σ index).asInt
      let place ← position i items.length
      match items[place]? with
      | some v => return v
      | none => throw (.indexOutOfBounds i items.length)) := by
  cases index with
  | slice | sliceFrom => simp [Expr.isSlice] at hindex
  | _ => rfl

theorem eval_slice (base l u s : Expr) :
    eval σ (.subscript base (.slice l u s)) = (do
      let items ← (← eval σ base).asList
      let lower ← (← eval σ l).asInt
      let upper ← (← eval σ u).asInt
      let step ← (← eval σ s).asInt
      slice items lower (some upper) step) := rfl

theorem eval_sliceFrom (base l s : Expr) :
    eval σ (.subscript base (.sliceFrom l s)) = (do
      let items ← (← eval σ base).asList
      let lower ← (← eval σ l).asInt
      let step ← (← eval σ s).asInt
      slice items lower none step) := rfl

/-- Lists come to the same if their members do, one by one. -/
theorem evalAll_congr {τ : Store} {es es' : List Expr}
    (h : List.Forall₂ (fun e e' => eval σ e' = eval τ e) es es') :
    evalAll σ es' = evalAll τ es := by
  induction h with
  | nil => rfl
  | cons he _ ih => simp only [evalAll, he, ih]

/-! ## Truth values -/

/-- A result is a truth value or an error. -/
def IsTruth (r : Except Failure Value) : Prop := ∀ v, r = .ok v → ∃ b, v = .bool b

/-- A truth value can be asked for as such and given back. -/
theorem map_holds {e : Expr} (h : IsTruth (eval σ e)) : (holds σ e).map .bool = eval σ e := by
  unfold holds
  cases he : eval σ e with
  | error f => rfl
  | ok v =>
    obtain ⟨b, rfl⟩ := h v he
    rfl

/-- A condition holds, or does not, if it comes to a truth value. -/
theorem holds_eq_ok {e : Expr} {b : Bool} : holds σ e = .ok b ↔ eval σ e = .ok (.bool b) := by
  unfold holds
  cases eval σ e with
  | error f => simp [bind, Except.bind]
  | ok v => cases v <;> simp [bind, Except.bind, Value.asBool]

/-- The right side of a conjunction is left out if the left one is false. -/
theorem eval_and (l r : Expr) :
    eval σ (.and l r) = (do
      if ← holds σ l then return .bool (← holds σ r) else return .bool false) := by
  simp only [holds, bind_assoc]
  rfl

/-- The right side of an implication is left out if the left one is false. -/
theorem eval_implies (l r : Expr) :
    eval σ (.implies l r) = (do
      if ← holds σ l then return .bool (← holds σ r) else return .bool true) := by
  simp only [holds, bind_assoc]
  rfl

theorem holds_implies (l r : Expr) :
    holds σ (.implies l r) = (do if ← holds σ l then holds σ r else return true) := by
  rw [holds, eval_implies]
  rcases holds σ l with f | (_ | _)
  · rfl
  · rfl
  · cases holds σ r <;> rfl

theorem holds_not (e : Expr) : holds σ (.not e) = (holds σ e).map (!·) := by
  have hnot : eval σ (.not e) = (do applyUnary .not (← eval σ e)) := rfl
  rw [holds, holds, hnot]
  cases eval σ e with
  | error f => rfl
  | ok v => cases v <;> rfl

/-- The condition of a branch comes to that of the part that is taken. -/
theorem eval_branch {c : Expr} {taken : Bool} (hc : holds σ c = .ok taken) (p q : Expr) :
    eval σ (.and (.implies c p) (.implies (.not c) q)) =
      (holds σ (if taken then p else q)).map .bool := by
  rw [eval_and, holds_implies, holds_implies, holds_not, hc]
  cases taken with
  | false => rfl
  | true =>
    simp only [if_pos]
    rcases holds σ p with f | (_ | _) <;> rfl

/-! ## Substitution -/

/-- A slice has no value of its own. -/
theorem isSlice_of_eval_eq_ok {r : Expr} {v : Value} (hr : eval σ r = .ok v) :
    r.isSlice = false := by
  cases r with
  | slice | sliceFrom => simp [eval] at hr
  | _ => rfl

/-- The first expression in the first store comes to what the second one comes to in the second
store, and so it does as the index of a subscript. A slice has no value of its own. -/
structure SameResult (σ τ : Store) (e' e : Expr) : Prop where
  eval_eq : eval σ e' = eval τ e
  index_eq : ∀ {b b' : Expr}, eval σ b' = eval τ b →
    eval σ (.subscript b' e') = eval τ (.subscript b e)

/-- Expressions that are no slices have the same result if they come to the same. -/
theorem SameResult.of_eval_eq {τ : Store} {e e' : Expr} (he' : e'.isSlice = false)
    (he : e.isSlice = false) (h : eval σ e' = eval τ e) : SameResult σ τ e' e where
  eval_eq := h
  index_eq hb := by rw [eval_subscript he', eval_subscript he, hb, h]

/-- The slice in a subscript is taken apart together with it, so the induction carries what the
expressions come to as indices. -/
theorem sameResult_of_substitutes {e e' r : Expr} {x : String} {v : Value}
    (h : Expr.Substitutes x r e e') (hr : eval σ r = .ok v) : SameResult σ (σ.insert x v) e' e := by
  induction h with
  | here => exact .of_eval_eq (isSlice_of_eval_eq_ok hr) rfl (by simp [eval, hr])
  | other hyx => exact .of_eval_eq rfl rfl (by simp [eval, hyx])
  | lit => exact .of_eval_eq rfl rfl rfl
  | @binary _ _ op _ _ _ _ _ _ iha ihb =>
    refine .of_eval_eq rfl rfl ?_
    cases op <;> simp only [eval, (iha hr).eval_eq, (ihb hr).eval_eq]
  | unary _ ih => exact .of_eval_eq rfl rfl (by simp only [eval, (ih hr).eval_eq])
  | subscript _ _ ihb ihi => exact .of_eval_eq rfl rfl ((ihi hr).index_eq (ihb hr).eval_eq)
  | slice _ _ _ ihl ihu ihs =>
    refine ⟨rfl, fun hb => ?_⟩
    rw [eval_slice, eval_slice, hb, (ihl hr).eval_eq, (ihu hr).eval_eq, (ihs hr).eval_eq]
  | sliceFrom _ _ ihl ihs =>
    refine ⟨rfl, fun hb => ?_⟩
    rw [eval_sliceFrom, eval_sliceFrom, hb, (ihl hr).eval_eq, (ihs hr).eval_eq]
  | call hlength _ ih =>
    have hargs := evalAll_congr (List.forall₂_iff_zip.2 ⟨hlength, fun hp => (ih _ hp hr).eval_eq⟩)
    exact .of_eval_eq rfl rfl (by simp only [eval, hargs])
  | bound | kept | renamed => exact .of_eval_eq rfl rfl rfl

/-- Substitution is assignment in a run, as long as the replacement has a value. -/
theorem eval_subst {e r : Expr} {x : String} {v : Value} (hr : eval σ r = .ok v) :
    eval σ (e.subst x r) = eval (σ.insert x v) e :=
  (sameResult_of_substitutes (Expr.substitutes_subst e x r) hr).eval_eq

/-! ## Failures of evaluation -/

/-- The result is not that of a false assertion. -/
def NoAssertion {α : Type} (r : Except Failure α) : Prop := ∀ c, r ≠ .error (.assertionFailed c)

section NoAssertion

variable {α β : Type}

theorem NoAssertion.ok (a : α) : NoAssertion (.ok a : Except Failure α) := by
  intro c h
  cases h

/-- A sequence without false assertions in its parts has none. -/
theorem NoAssertion.bind {r : Except Failure α} {f : α → Except Failure β} (hr : NoAssertion r)
    (hf : ∀ a, NoAssertion (f a)) : NoAssertion (r >>= f) := by
  cases r with
  | error failure =>
    intro c h
    cases h
    exact hr c rfl
  | ok a => exact hf a

theorem noAssertion_asInt (v : Value) : NoAssertion v.asInt := by
  cases v <;> simp [NoAssertion, Value.asInt]

theorem noAssertion_asBool (v : Value) : NoAssertion v.asBool := by
  cases v <;> simp [NoAssertion, Value.asBool]

theorem noAssertion_asList (v : Value) : NoAssertion v.asList := by
  cases v <;> simp [NoAssertion, Value.asList]

theorem noAssertion_checked (op : String) (n : Int) : NoAssertion (checked op n) := by
  unfold checked
  split_ifs <;> simp [NoAssertion]

theorem noAssertion_floorDiv (a b : Int) : NoAssertion (floorDiv a b) := by
  by_cases hb : b = 0
  · subst hb
    intro c h
    cases h
  · rw [floorDiv, if_neg hb]
    exact (noAssertion_checked _ _).bind fun q => .ok _

theorem noAssertion_floorMod (a b : Int) : NoAssertion (floorMod a b) := by
  by_cases hb : b = 0
  · subst hb
    intro c h
    cases h
  · rw [floorMod, if_neg hb]
    exact (noAssertion_checked _ _).bind fun q => .ok _

theorem noAssertion_position (i : Int) (n : Nat) : NoAssertion (position i n) := by
  unfold position
  split_ifs <;> simp [NoAssertion]

theorem noAssertion_slice (items : List Value) (lower : Int) (upper : Option Int) (step : Int) :
    NoAssertion (slice items lower upper step) := by
  unfold slice
  split_ifs <;> simp [NoAssertion]

theorem noAssertion_equal (a b : Value) : NoAssertion (equal a b) := by
  unfold equal
  split <;> simp [NoAssertion]

/-- No operator fails by an assertion. -/
theorem noAssertion_applyBinary (op : Op) (a b : Value) : NoAssertion (applyBinary op a b) := by
  have hints : ∀ f : Int → Int → Except Failure Value, (∀ m n, NoAssertion (f m n)) →
      NoAssertion (do
        let m ← a.asInt
        let n ← b.asInt
        f m n) := fun f hf =>
    (noAssertion_asInt a).bind fun m => (noAssertion_asInt b).bind fun n => hf m n
  cases op with
  | eq | ne => exact (noAssertion_equal a b).bind fun same => .ok _
  | iff => exact (noAssertion_asBool a).bind fun p => (noAssertion_asBool b).bind fun q => .ok _
  | add | sub | mul => exact hints _ fun m n => (noAssertion_checked _ _).bind fun k => .ok _
  | div => exact hints _ fun m n => (noAssertion_floorDiv m n).bind fun k => .ok _
  | mod => exact hints _ fun m n => (noAssertion_floorMod m n).bind fun k => .ok _
  | lt | le | gt | ge => exact hints _ fun m n => .ok _
  | neg | and | or | not | implies =>
    refine hints _ fun m n => ?_
    intro c h
    cases h

theorem noAssertion_applyUnary (op : Op) (v : Value) : NoAssertion (applyUnary op v) := by
  cases op with
  | not => exact (noAssertion_asBool v).bind fun p => .ok _
  | _ =>
    exact (noAssertion_asInt v).bind fun n => (noAssertion_checked _ _).bind fun k => .ok _

/-- No built-in function fails by an assertion. -/
theorem noAssertion_applyBuiltin (f : String) (args : List Value) :
    NoAssertion (applyBuiltin f args) := by
  unfold applyBuiltin
  split
  · exact (noAssertion_asList _).bind fun items => .ok _
  · exact (noAssertion_asList _).bind fun items => (noAssertion_asInt _).bind fun i =>
      (noAssertion_position _ _).bind fun place => .ok _
  · simp [NoAssertion]

mutual

/-- The failure of an evaluation is never that of a false assertion. -/
theorem noAssertion_eval (σ : Store) (e : Expr) : NoAssertion (eval σ e) := by
  match e with
  | .lit v => exact .ok _
  | .var x =>
    rw [eval]
    split <;> simp [NoAssertion]
  | .unary op e =>
    rw [eval]
    split_ifs
    · exact (noAssertion_eval σ e).bind fun v => noAssertion_applyUnary op v
    · simp [NoAssertion]
  | .binary op l r =>
    have hl := noAssertion_eval σ l
    have hr := noAssertion_eval σ r
    have hright : NoAssertion (do return Value.bool (← (← eval σ r).asBool)) :=
      hr.bind fun v => (noAssertion_asBool v).bind fun p => .ok _
    cases op with
    | and | implies =>
      refine hl.bind fun v => (noAssertion_asBool v).bind fun p => ?_
      cases p with
      | false => exact .ok _
      | true => exact hright
    | or =>
      refine hl.bind fun v => (noAssertion_asBool v).bind fun p => ?_
      cases p with
      | false => exact hright
      | true => exact .ok _
    | _ => exact hl.bind fun a => hr.bind fun b => noAssertion_applyBinary _ a b
  | .subscript base index =>
    have hbase : NoAssertion (do (← eval σ base).asList) :=
      (noAssertion_eval σ base).bind noAssertion_asList
    have hindex := noAssertion_eval σ index
    cases index with
    | slice l u s =>
      rw [eval_slice, ← bind_assoc]
      exact hbase.bind fun items =>
        (noAssertion_eval σ l).bind fun l => (noAssertion_asInt l).bind fun lower =>
        (noAssertion_eval σ u).bind fun u => (noAssertion_asInt u).bind fun upper =>
        (noAssertion_eval σ s).bind fun s => (noAssertion_asInt s).bind fun step =>
        noAssertion_slice items lower (some upper) step
    | sliceFrom l s =>
      rw [eval_sliceFrom, ← bind_assoc]
      exact hbase.bind fun items =>
        (noAssertion_eval σ l).bind fun l => (noAssertion_asInt l).bind fun lower =>
        (noAssertion_eval σ s).bind fun s => (noAssertion_asInt s).bind fun step =>
        noAssertion_slice items lower none step
    | _ =>
      rw [eval_subscript rfl, ← bind_assoc]
      refine hbase.bind fun items => hindex.bind fun i => (noAssertion_asInt i).bind fun i =>
        (noAssertion_position i _).bind fun place => ?_
      split
      · exact .ok _
      · intro c h
        cases h
  | .slice .. | .sliceFrom .. | .forAll .. => simp [eval, NoAssertion]
  | .call f args =>
    rw [eval]
    exact (noAssertion_evalAll σ args).bind fun vs => noAssertion_applyBuiltin f vs

theorem noAssertion_evalAll (σ : Store) (es : List Expr) : NoAssertion (evalAll σ es) := by
  match es with
  | [] => exact .ok _
  | e :: es =>
    exact (noAssertion_eval σ e).bind fun v => (noAssertion_evalAll σ es).bind fun vs => .ok _

end

/-- Asking whether a condition holds does not fail by an assertion. -/
theorem noAssertion_holds (σ : Store) (e : Expr) : NoAssertion (holds σ e) :=
  (noAssertion_eval σ e).bind noAssertion_asBool

end NoAssertion

end Exec

end Precond
