import Precond.Verify.Report
import Precond.Verify.Session

/-!
# Runs

A run verifies the functions of a module, scope by scope, each with a solver of its own. In
fail-fast mode the first failure ends it; otherwise failures are collected, except those after
which going on makes no sense.
-/

namespace Precond

/-- What happens after a failure. -/
inductive RunMode where
  /-- The run ends. -/
  | failFast
  /-- The failure is recorded and the run goes on. -/
  | collect
  deriving DecidableEq, Repr

/-- A run over a module with a solver whose states are `σ`. -/
structure Run (σ : Type) where
  /-- What is verified. -/
  module : Host.Module
  /-- What happens after a failure. -/
  mode : RunMode
  /-- The names accepted as annotations. -/
  accepted : List String
  /-- The solver. -/
  backend : Smt.Backend σ

namespace Run

variable {σ : Type}

/-- Verifies a function: a solver is started only if the function can be prepared. -/
def verifySubject (run : Run σ) (f : Host.Subject) : Verifying σ Nat := do
  let p ← Verifying.ofExcept (f.prepare run.accepted)
  Verifying.ofSolving run.backend.spawn
  p.discharge run.backend

/-- Whether a failure ends the run. -/
def endsWith (run : Run σ) (e : Error) : Bool := e.isFatal || run.mode = .failFast

/-- What is found out about a function, unless its failure ends the run. -/
def finding (run : Run σ) (scope : String) (f : Host.Subject) : Verifying σ Finding := do
  match ← ExceptT.mk (.ok <$> (run.verifySubject f).run) with
  | .ok proven => return .ofProven scope f.name proven
  | .error e => if run.endsWith e then throw e else return .ofError scope f.name e

/-- What is found out about the functions of a scope. -/
def verifySubjects (run : Run σ) (scope : String) : List Host.Subject → Verifying σ (List Finding)
  | [] => return []
  | f :: fs => do
    let finding ← run.finding scope f
    let findings ← verifySubjects run scope fs
    return finding :: findings

/-- What is found out about the functions of the scopes with the given names. -/
def verifyNames (run : Run σ) : List String → Verifying σ (List Finding)
  | [] => return []
  | name :: names => do
    let first ←
      match run.module.scope? name with
      | some scope => run.verifySubjects name scope.subjects
      | none => pure []
    let rest ← verifyNames run names
    return first ++ rest

/-- Verifies all scopes in the order of the program. -/
def verifyAll (run : Run σ) : Verifying σ Report := do
  return ⟨← run.verifyNames (run.module.scopes.map (·.name))⟩

/-- Verifies the scope of a name. -/
def verifyScope (run : Run σ) (name : String) : Verifying σ Report := do
  match run.module.scope? name with
  | some _ => return ⟨← run.verifyNames [name]⟩
  | none =>
    let known := run.module.scopes.map (·.name)
    throw (.config (.unknownScope name (Name.suggestion? name known)))

end Run

end Precond
