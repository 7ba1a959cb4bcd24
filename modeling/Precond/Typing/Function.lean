import Precond.Program.Stmt
import Precond.Typing.Expr

/-!
# Types of statements and functions

`Stmt.check` checks a statement; an assignment gives its variable a type, which it keeps from then
on. `checkFunction` checks a function with its contract. A later use may settle the type of
a variable that was met earlier, so it goes over the function again while anything changes, four
times at most.
-/

namespace Precond

/-- The expressions of a list, if each has the expected type. -/
def Expr.checkAll (expected : Ty) : List Expr → Checking (List Expr)
  | [] => return []
  | e :: es => do
    let e ← e.check expected
    let es ← checkAll expected es
    return e :: es

/-- Checks the assignment of a value to a variable. -/
def Expr.checkAssigned (x : String) (value : Expr) : Checking Expr := do
  let (found, value) ← value.infer
  match (← get).get? x with
  | none =>
    modify (·.insert x found)
    return value
  | some current =>
    if current.compatible found then
      let refined := current.refine found
      let value ← value.check refined
      modify (·.insert x refined)
      return value
    else throw (.type (.mutation x current value found) none)

/-- The statement, if its types fit. -/
def Stmt.check : Stmt → Checking Stmt
  | .skip => return .skip
  | .assign x value => do
    let value ← value.checkAssigned x
    return .assign x value
  | .seq first second => do
    let first ← check first
    let second ← check second
    return .seq first second
  | .branch cond thenBranch elseBranch => do
    let cond ← cond.check .bool
    let thenBranch ← check thenBranch
    let elseBranch ← check elseBranch
    return .branch cond thenBranch elseBranch
  | .assume cond => do
    let cond ← cond.check .bool
    return .assume cond
  | .assert cond => do
    let cond ← cond.check .bool
    return .assert cond
  | .loop invariants cond body => do
    let invariants ← Expr.checkAll .bool invariants
    let cond ← cond.check .bool
    let body ← check body
    return .loop invariants cond body
  | .havoc x => do
    modify fun env => if env.contains x then env else env.insert x .unknown
    return .havoc x

/-- A function with its contract. -/
structure Contracted where
  /-- What it may assume. -/
  requires : List Expr
  /-- Its body. -/
  body : Stmt
  /-- What it has to establish. -/
  ensures : List Expr
  deriving DecidableEq, Repr

/-- One pass over a function. -/
def Contracted.checkOnce (f : Contracted) : Checking Contracted := do
  let requires ← Expr.checkAll .bool f.requires
  let body ← f.body.check
  let ensures ← Expr.checkAll .bool f.ensures
  return ⟨requires, body, ensures⟩

/-- Passes over a function until nothing changes, at most as many as said. -/
def Contracted.checkPasses : (passes : Nat) → Contracted → Checking Contracted
  | 0, f => return f
  | passes + 1, f => do
    let before ← get
    let f ← f.checkOnce
    if (← get) = before then return f
    checkPasses passes f

/-- The number of passes after which types count as settled. -/
def maxPasses : Nat := 4

/-- The function with the types of its quantified variables, if its types fit. -/
def Contracted.check (f : Contracted) : Checking Contracted := checkPasses maxPasses f

end Precond
