import Precond.Error
import Precond.Program.Stmt
import Precond.Typing.Env

/-!
# Weakest preconditions

`Stmt.wp` is the calculus on statements without loops: the condition under which a statement
establishes a given one, whatever values its `havoc`s choose. A `havoc` quantifies over a fresh
variable. `obligations` puts a function's contract together with it.
-/

namespace Precond

/-- The precondition of a statement and what else has to hold. -/
structure Precondition where
  /-- What has to hold before the statement. -/
  formula : Expr
  /-- Further conditions, in the order in which they first arise. -/
  side : List Expr := []
  deriving DecidableEq, Repr

/-- The conditions of two lists, each once. -/
def mergeConditions (side : List Expr) : List Expr → List Expr
  | [] => side
  | e :: more => mergeConditions (if e ∈ side then side else side ++ [e]) more

/-- The precondition under which a statement establishes `post`. -/
def Stmt.wp (env : TypeEnv) : Stmt → Expr → Naming Precondition
  | .skip, post => return ⟨post, []⟩
  | .assign x value, post => return ⟨post.subst x value, []⟩
  | .assert cond, post => return ⟨.and post cond, []⟩
  | .assume cond, post => return ⟨.implies cond post, []⟩
  | .seq first second, post => do
    let q ← wp env second post
    let p ← wp env first q.formula
    return ⟨p.formula, mergeConditions q.side p.side⟩
  | .branch cond thenBranch elseBranch, post => do
    let p ← wp env thenBranch post
    let q ← wp env elseBranch post
    return ⟨.and (.implies cond p.formula) (.implies (.not cond) q.formula),
      mergeConditions p.side q.side⟩
  | .havoc x, post => do
    let y ← Supply.fresh x
    return ⟨.forAll y ((env.get? x).filter Ty.isConcrete) (post.subst x (.var y)), []⟩
  | .loop .., _ => throw .uncutLoop

/-- Numbers the further conditions of a function from `index` on. -/
def sideObligations (index : Nat) : List Expr → List Obligation
  | [] => []
  | e :: es => ⟨.sideCondition index, e⟩ :: sideObligations (index + 1) es

/-- What has to be valid for a body to meet a contract. -/
def obligations (env : TypeEnv) (requires ensures : List Expr) (body : Stmt) :
    Naming (List Obligation) := do
  let p ← body.wp env (.conjoin ensures)
  return ⟨.precondition, .implies (.conjoin requires) p.formula⟩ :: sideObligations 0 p.side

end Precond
