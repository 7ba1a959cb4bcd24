import Precond.Smt.Process

/-!
# Scripted solvers

A solver that answers from a script instead of deciding anything. It is the means to try a run
against every course that a conversation with a solver can take. It keeps a log of what it was
sent; a failing command is logged too.
-/

namespace Precond.Smt

/-- What a scripted solver does. -/
structure Script where
  /-- The text of its models. -/
  model : String := "()"
  /-- The number of the command that fails, if one does. -/
  failAt : Option Nat := none
  /-- The number of the start that fails, if one does. -/
  spawnFailAt : Option Nat := none
  deriving Repr

namespace Script

/-- Where a scripted solver is in its script. -/
structure State where
  /-- The answers to the next checks. -/
  answers : List String := []
  /-- The number of commands so far. -/
  commands : Nat := 0
  /-- The number of starts so far. -/
  spawns : Nat := 0
  /-- What was sent, the last one first. -/
  log : List String := []
  deriving Repr

/-- Logs and counts a command, and fails if it is the one that fails. -/
def step (script : Script) (command : String) : Solving State Unit := do
  let s ← get
  set { s with commands := s.commands + 1, log := command :: s.log }
  if script.failAt = some s.commands then throw (.rejected command "scripted")

/-- Takes the next answer; when there are none left, nothing told can be true. -/
def answer : Solving State Verdict := do
  let s ← get
  match s.answers with
  | [] => return .unsat
  | a :: answers =>
    set { s with answers := answers }
    match a with
    | "sat" => return .sat
    | "unsat" => return .unsat
    | "closed" => throw .closed
    | reason => return .unknown reason

/-- Starts a solver, unless this is the start that fails. -/
def spawn (script : Script) : Solving State Unit := do
  let s ← get
  let failing := script.spawnFailAt = some s.spawns
  set { s with
    spawns := s.spawns + 1,
    log := if failing then s.log else "spawn" :: s.log }
  if failing then throw (.spawn "scripted" "refused")

/-- The solver that follows a script. -/
def backend (script : Script) : Backend State where
  spawn := script.spawn
  tell c := script.step c.render
  check := do
    script.step "(check-sat)"
    answer
  model := do
    script.step "(get-model)"
    ExceptT.mk (pure (Model.parse script.model.toList))

end Script

end Precond.Smt
