import Mathlib.Tactic
import Precond.Smt.Term

/-!
# The meaning of terms

The semantics of the terms that are sent to the solver, after SMT-LIB. Numbers are mathematical
integers, and an array is a total function of the integers, so that two arrays are equal when they
have the same elements. Division and remainder are those with a remainder that is never negative; by
zero they may give anything, but always the same for the same dividend. A quantifier ranges over all
values of its sort.

An `Interpretation` gives values to constants and functions by their names. `Declaration.Holds` says
that it respects a declaration: the symbol has the declared sort, the defined function is what its
body says, the fact is true.
-/

namespace Precond.Smt

/-! ## Values -/

/-- A value of the solver. -/
inductive Value where
  | int (n : Int)
  | bool (b : Bool)
  /-- A total array, as the function from its indices to its elements. -/
  | array (elements : Int → Value)

namespace Value

/-- The value is of a sort. -/
def HasSort : Value → SmtSort → Prop
  | .int _, .int => True
  | .bool _, .bool => True
  | .array elements, .array elem => ∀ i, (elements i).HasSort elem
  | _, _ => False

open Classical in
/-- The truth value of a proposition. -/
noncomputable def ofProp (p : Prop) : Value := .bool (decide p)

theorem ofProp_eq_bool {p : Prop} {b : Bool} : ofProp p = .bool b ↔ (p ↔ b = true) := by
  classical
  cases b <;> simp [ofProp]

theorem hasSort_int {v : Value} : v.HasSort .int ↔ ∃ n, v = .int n := by
  cases v <;> simp [HasSort]

theorem hasSort_bool {v : Value} : v.HasSort .bool ↔ ∃ b, v = .bool b := by
  cases v <;> simp [HasSort]

/-- The values of a sort of arrays are arrays of elements of the sort of these. -/
theorem hasSort_array {v : Value} {elem : SmtSort} :
    v.HasSort (.array elem) ↔ ∃ a, v = .array a ∧ ∀ i, (a i).HasSort elem := by
  cases v <;> simp [HasSort]

end Value

/-! ## Interpretations -/

/-- Values of the constants and functions by their names, and what is left open of division. -/
structure Interpretation where
  constants : String → Value
  functions : String → List Value → Value
  /-- The quotient by zero of each dividend. -/
  divZero : Int → Int
  /-- The remainder by zero of each dividend. -/
  modZero : Int → Int

namespace Interpretation

variable (M : Interpretation)

/-- The quotient that leaves no negative remainder. -/
def div (a b : Int) : Int := if b = 0 then M.divZero a else a / b

/-- The remainder that is never negative. -/
def mod (a b : Int) : Int := if b = 0 then M.modZero a else a % b

/-- The value of a function, where the arguments are of its sorts. -/
noncomputable def apply : Fn → List Value → Option Value
  | .plus, [.int a, .int b] => some (.int (a + b))
  | .minus, [.int a] => some (.int (-a))
  | .minus, [.int a, .int b] => some (.int (a - b))
  | .times, [.int a, .int b] => some (.int (a * b))
  | .div, [.int a, .int b] => some (.int (M.div a b))
  | .mod, [.int a, .int b] => some (.int (M.mod a b))
  | .equal, [a, b] => some (.ofProp (a = b))
  | .less, [.int a, .int b] => some (.bool (a < b))
  | .atMost, [.int a, .int b] => some (.bool (a ≤ b))
  | .greater, [.int a, .int b] => some (.bool (a > b))
  | .atLeast, [.int a, .int b] => some (.bool (a ≥ b))
  | .and, [.bool p, .bool q] => some (.bool (p && q))
  | .or, [.bool p, .bool q] => some (.bool (p || q))
  | .not, [.bool p] => some (.bool !p)
  | .implies, [.bool p, .bool q] => some (.bool (!p || q))
  | .ite, [.bool c, a, b] => some (if c then a else b)
  | .select, [.array a, .int i] => some (a i)
  | .store, [.array a, .int i, v] => some (.array (Function.update a i v))
  | .floorDiv, args => some (M.functions Fn.floorDiv.render args)
  | .floorMod, args => some (M.functions Fn.floorMod.render args)
  | .len array, args => some (M.functions (Fn.len array).render args)
  | _, _ => none

/-- Equality is true of equal values only. -/
theorem apply_equal {M : Interpretation} {a b : Value} {p : Bool} (h : a = b ↔ p = true) :
    M.apply .equal [a, b] = some (.bool p) :=
  congrArg some (Value.ofProp_eq_bool.mpr h)

end Interpretation

/-! ## Terms -/

/-- What is said is so for all values of the named variables, of their sorts. -/
def ForAllValues (vars : List (String × SmtSort)) (p : (String → Value) → Prop)
    (c : String → Value) : Prop :=
  match vars with
  | [] => p c
  | (x, s) :: vars => ∀ v : Value, v.HasSort s → ForAllValues vars p (Function.update c x v)

namespace Term

mutual

/-- The value of a term, where `c` gives the values of symbols. A term that is not well sorted may
have none. -/
noncomputable def value (M : Interpretation) : Term → (String → Value) → Option Value
  | .symbol name, c => some (c name)
  | .int n, _ => some (.int n)
  | .bool b, _ => some (.bool b)
  | .app f args, c => (values M args c).bind (M.apply f)
  | .forAll vars body, c =>
    some (.ofProp (ForAllValues vars (fun c => value M body c = some (.bool true)) c))

/-- The values of the terms of a list, if all have one. -/
noncomputable def values (M : Interpretation) : List Term → (String → Value) → Option (List Value)
  | [], _ => some []
  | t :: ts, c => (value M t c).bind fun v => (values M ts c).map (v :: ·)

end

variable {M : Interpretation} {c : String → Value} {f : Fn} {v : Value}

theorem value_app_one {t : Term} {a : Value} (ht : t.value M c = some a)
    (h : M.apply f [a] = some v) : (Term.app f [t]).value M c = some v := by
  simp [value, values, ht, h]

/-- The value of a function of two arguments, from theirs. -/
theorem value_app_two {l r : Term} {a b : Value} (hl : l.value M c = some a)
    (hr : r.value M c = some b) (h : M.apply f [a, b] = some v) :
    (Term.app f [l, r]).value M c = some v := by
  simp [value, values, hl, hr, h]

theorem value_app_three {t₁ t₂ t₃ : Term} {a₁ a₂ a₃ : Value} (h₁ : t₁.value M c = some a₁)
    (h₂ : t₂.value M c = some a₂) (h₃ : t₃.value M c = some a₃)
    (h : M.apply f [a₁, a₂, a₃] = some v) : (Term.app f [t₁, t₂, t₃]).value M c = some v := by
  simp [value, values, h₁, h₂, h₃, h]

/-- The term is true under an interpretation. -/
def Holds (M : Interpretation) (t : Term) : Prop := t.value M M.constants = some (.bool true)

/-- A quantified term is true if its body is, for all values of the sorts. -/
theorem holds_forAll {vars : List (String × SmtSort)} {body : Term} :
    (Term.forAll vars body).Holds M ↔
      ForAllValues vars (fun c => body.value M c = some (.bool true)) M.constants := by
  rw [Holds, value, Option.some_inj, Value.ofProp_eq_bool, iff_true_right rfl]

end Term

/-! ## Declarations -/

/-- The interpretation respects a declaration. -/
def Declaration.Holds (M : Interpretation) : Declaration → Prop
  | .const name sort => (M.constants name).HasSort sort
  | .function name params result =>
    ∀ args : List Value, List.Forall₂ Value.HasSort args params →
      (M.functions name args).HasSort result
  | .define name params result body =>
    ForAllValues params (fun c =>
      body.value M c = some (M.functions name (params.map fun p => c p.1)) ∧
        (M.functions name (params.map fun p => c p.1)).HasSort result) M.constants
  | .fact term => term.Holds M

end Precond.Smt
