import Precond.Host.Lowering
import Precond.Program.Wp
import Precond.Smt.Encoding
import Precond.Smt.Process
import Precond.Typing.Function

/-!
# Verifying a function

`Subject.prepare` takes a function from its text to its obligations, without a solver. `discharge`
has a solver decide the obligations: everything is encoded first, then the declarations are made,
and then each obligation is refuted, with its negation told between a push and a pop. It stops at
the first obligation that is not proven.
-/

namespace Precond

/-- A function that is ready for the solver. -/
structure Prepared where
  /-- Its name. -/
  name : String
  /-- The types of its variables. -/
  env : TypeEnv
  /-- Its body, without loops. -/
  body : Stmt
  /-- What has to be proven. -/
  obligations : List Obligation
  deriving Repr

namespace Host.Subject

/-- The assertions of a contract; errors in them point into the program. -/
def parseClauses : List (Spanned String) → Naming (List Precond.Expr)
  | [] => return []
  | clause :: clauses => do
    let e ← ExceptT.adapt (Error.shift clause.span.start) (Grammar.Assertion.parse clause.node)
    let es ← parseClauses clauses
    return e :: es

/-- The types that the parameters of a function have. -/
def declareParams (params : List (String × Option Ty)) : Checking Unit :=
  params.forM fun (x, ty) => Checking.declare x (ty.getD .unknown)

/-- The contract and the body of a function. -/
def contracted (f : Subject) (accepted : List String) : Naming Contracted := do
  if f.result.isNone then throw (.missingReturnType f.name (some f.span))
  let requires ← parseClauses f.requires
  let ensures ← parseClauses f.ensures
  let body ← Stmt.lowerBody accepted f.body
  return ⟨requires, body, ensures⟩

/-- The function with its types, and the types of its variables. -/
def typed (f : Subject) (c : Contracted) : Except Error (Contracted × TypeEnv) :=
  let checking : Checking Contracted := do
    declareParams f.params
    ExceptT.adapt (Error.orSpan f.span) c.check
  match checking.run Bindings.empty with
  | (.ok c, env) => .ok (c, env)
  | (.error e, _) => .error e

/-- The function with its obligations, with names drawn from a supply. -/
def prepareWith (f : Subject) (accepted : List String) : Naming Prepared := do
  let c ← f.contracted accepted
  let (c, env) ← Naming.ofExcept (f.typed c)
  let obligations ← obligations env c.requires c.ensures c.body
  return ⟨f.name, env, c.body, obligations⟩

/-- The function with its obligations. The names accepted as annotations are given. -/
def prepare (f : Subject) (accepted : List String) : Except Error Prepared :=
  ((f.prepareWith accepted).run {}).1

end Host.Subject

/-- A computation that uses a solver and may fail. -/
abbrev Verifying (σ : Type) := ExceptT Error (StateM σ)

namespace Verifying

/-- A step of a solver. -/
def ofSolving {σ α : Type} (s : Smt.Solving σ α) : Verifying σ α := ExceptT.adapt .solver s

/-- A value or a failure, without the solver. -/
def ofExcept {σ α : Type} (r : Except Error α) : Verifying σ α := ExceptT.mk (pure r)

end Verifying

namespace Prepared

open Verifying

variable {σ : Type}

/-- Has a solver refute the negation of one obligation. -/
def discharge1 (p : Prepared) (backend : Smt.Backend σ) (o : Obligation) (t : Smt.Term) :
    Verifying σ Unit := do
  ofSolving (backend.tell .push)
  ofSolving (backend.tell (.add t.negate))
  match ← ofSolving backend.check with
  | .unsat => ofSolving (backend.tell .pop)
  | .sat =>
    let model ← ofSolving backend.model
    ofSolving (backend.tell .pop)
    throw (.violated p.name o.kind o.formula model)
  | .unknown reason =>
    ofSolving (backend.tell .pop)
    throw (.undecided p.name o.formula reason)

/-- What has to be declared and what has to be proven, as the solver takes it. -/
def encoded (p : Prepared) :
    Except Error (List Smt.Declaration × List (Obligation × Smt.Term)) := do
  let formulas := p.obligations.map (·.formula)
  let terms ← Smt.encodeAll p.env [] formulas
  let declarations ← Smt.declarations p.env formulas
  return (declarations, p.obligations.zip terms)

/-- Has a solver decide the obligations of a function, and gives their number if all are proven. -/
def discharge (p : Prepared) (backend : Smt.Backend σ) : Verifying σ Nat := do
  let (declarations, goals) ← Verifying.ofExcept p.encoded
  declarations.forM fun d => ofSolving (backend.tell (.declare d))
  goals.forM fun (o, t) => p.discharge1 backend o t
  return goals.length

end Prepared

end Precond
