import Precond.Logic.Expr
import Precond.Name.Bindings

/-!
# Values and failures of a run

The values that expressions take when a program is run, and the ways in which a run can fail.
Machine integers have 64 bits: a result that does not fit is a failure, not a wrapped value.
-/

namespace Precond.Exec

/-- A value of a run. -/
inductive Value where
  | int (n : Int)
  | bool (b : Bool)
  | list (items : List Value)
  deriving Repr, Inhabited

namespace Value

mutual

/-- Whether two values are equal. -/
def same : Value → Value → Bool
  | .int a, .int b => a == b
  | .bool a, .bool b => a == b
  | .list as, .list bs => sameAll as bs
  | _, _ => false

/-- Whether two lists of values are equal. -/
def sameAll : List Value → List Value → Bool
  | [], [] => true
  | a :: as, b :: bs => same a b && sameAll as bs
  | _, _ => false

end

mutual

theorem eq_of_same {a b : Value} (h : same a b = true) : a = b := by
  match a, b with
  | .int _, .int _ | .bool _, .bool _ => simp_all [same]
  | .list as, .list bs =>
    simp only [same] at h
    rw [eq_of_sameAll h]

theorem eq_of_sameAll {as bs : List Value} (h : sameAll as bs = true) : as = bs := by
  match as, bs with
  | [], [] => rfl
  | a :: as, b :: bs =>
    simp only [sameAll, Bool.and_eq_true] at h
    rw [eq_of_same h.1, eq_of_sameAll h.2]

end

mutual

theorem same_refl (a : Value) : same a a = true := by
  match a with
  | .int _ | .bool _ => simp [same]
  | .list as => simp [same, sameAll_refl as]

theorem sameAll_refl (as : List Value) : sameAll as as = true := by
  match as with
  | [] => simp [sameAll]
  | a :: as => simp [sameAll, same_refl a, sameAll_refl as]

end

theorem same_iff {a b : Value} : same a b = true ↔ a = b :=
  ⟨eq_of_same, fun h => h ▸ same_refl a⟩

instance : DecidableEq Value := fun _ _ => decidable_of_iff _ same_iff

/-- The name of the kind of a value. -/
def kindName : Value → String
  | .int _ => "int"
  | .bool _ => "bool"
  | .list _ => "list"

mutual

/-- The way a value is written. -/
def render : Value → String
  | .int n => toString n
  | .bool true => "True"
  | .bool false => "False"
  | .list items => "[" ++ ", ".intercalate (renderAll items) ++ "]"

/-- The way the values of a list are written. -/
def renderAll : List Value → List String
  | [] => []
  | v :: vs => render v :: renderAll vs

end

/-- The value of a constant. -/
def ofLiteral : Literal → Value
  | .int n => .int n
  | .bool b => .bool b

end Value

/-- The values of the variables of a program. -/
abbrev Store := Bindings Value

/-- Why a run cannot go on. -/
inductive Failure where
  | undefinedVariable (name : String)
  | undefinedFunction (name : String)
  /-- A value of the wrong kind. -/
  | wrongKind (expected got : String)
  | divisionByZero
  /-- A number that does not fit in 64 bits. -/
  | overflow (op : String)
  | assertionFailed (cond : Expr)
  | indexOutOfBounds (index : Int) (length : Nat)
  /-- Something that has a meaning but cannot be run. -/
  | notExecutable (what : String)
  /-- A loop that takes more turns than it may. -/
  | loopLimit (limit : Nat)
  deriving DecidableEq, Repr

/-- What a failure says. -/
def Failure.message : Failure → String
  | .undefinedVariable x => s!"Runtime error: undefined variable: {x}"
  | .undefinedFunction f => s!"Runtime error: undefined function: {f}"
  | .wrongKind expected got => s!"Runtime error: type error: expected {expected}, got {got}"
  | .divisionByZero => "Runtime error: division by zero"
  | .overflow op => s!"Runtime error: integer overflow in `{op}`"
  | .assertionFailed cond => s!"Runtime error: assertion failed: {cond.render}"
  | .indexOutOfBounds index length =>
    s!"Runtime error: index {index} out of bounds for length {length}"
  | .notExecutable what => s!"Runtime error: cannot execute {what}"
  | .loopLimit limit => s!"Runtime error: loop did not finish within {limit} iterations"

namespace Value

/-- The number that a value is. -/
def asInt : Value → Except Failure Int
  | .int n => .ok n
  | v => .error (.wrongKind "int" v.kindName)

/-- The truth value that a value is. -/
def asBool : Value → Except Failure Bool
  | .bool b => .ok b
  | v => .error (.wrongKind "bool" v.kindName)

/-- The list that a value is. -/
def asList : Value → Except Failure (List Value)
  | .list items => .ok items
  | v => .error (.wrongKind "list" v.kindName)

end Value

end Precond.Exec
