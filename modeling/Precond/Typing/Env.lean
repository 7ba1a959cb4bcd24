import Precond.Error
import Precond.Name.Bindings

/-!
# Type environments

Type checking works on one environment, in which the types of variables become more precise.
A computation that fails keeps what it has found out so far.
-/

namespace Precond

/-- The types of the variables. -/
abbrev TypeEnv := Bindings Ty

/-- A computation that refines a type environment and may fail. -/
abbrev Checking := ExceptT Error (StateM TypeEnv)

namespace Checking

/-- Gives a variable a type, if it has none that is more precise already. -/
def declare (x : String) (ty : Ty) : Checking Unit :=
  modify fun env =>
    match env.get? x with
    | some current => env.insert x (current.refine ty)
    | none => env.insert x ty

/-- The type of a variable. -/
def lookup (x : String) : Checking Ty := do
  let env ← get
  match env.get? x with
  | some ty => return ty
  | none => throw (.type (.undefinedVariable x (Name.suggestion? x env.names)) none)

/-- Makes sure that two types can be one, or else fails because of an expression. -/
def compare (e : Expr) (expected found : Ty) : Checking Unit := do
  if found.compatible expected then return ()
  else throw (.type (.mismatch e expected found) none)

/-- What a computation comes to, failure included. -/
def outcome {α : Type} (c : Checking α) : Checking (Except Error α) :=
  ExceptT.mk (.ok <$> c.run)

/-- Runs a computation in which `x` has a type of its own, and gives what it comes to and what
became of that type. Outside, `x` is as before. -/
def withBinder {α : Type} (x : String) (ty : Ty) (c : Checking α) :
    Checking (Except Error α × Option Ty) := do
  let outer := (← get).get? x
  modify (·.insert x ty)
  let result ← outcome c
  let inner := (← get).get? x
  modify fun env =>
    match outer with
    | some before => env.insert x before
    | none => env.erase x
  return (result, inner)

end Checking

end Precond
