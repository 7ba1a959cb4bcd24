import Precond.Logic.Expr

/-!
# Statements

Programs are built from assignments, assumptions and assertions by sequencing, branching and loops
that carry their invariants. `Stmt.havoc x` gives `x` any value at all; it does not come from a
program text but from cutting a loop.

`Stmt.sequence` chains a list of statements, `Stmt.leaves` reads the chain back, and
`Stmt.writtenVars` lists the variables that a statement may change. `Stmt.render` writes the tree
with one node to a line.
-/

namespace Precond

/-- A statement. -/
inductive Stmt where
  | skip
  | assign (var : String) (value : Expr)
  | seq (first second : Stmt)
  | branch (cond : Expr) (thenBranch elseBranch : Stmt)
  /-- Stops the run, without a failure, where the condition is false. -/
  | assume (cond : Expr)
  /-- Fails where the condition is false. -/
  | assert (cond : Expr)
  /-- Repeats the body while the condition holds; the invariants hold at each test. -/
  | loop (invariants : List Expr) (cond : Expr) (body : Stmt)
  /-- Gives a variable any value. -/
  | havoc (var : String)
  deriving DecidableEq, Repr, Inhabited

namespace Stmt

/-- The statements of a list one after another, nested to the left. A single statement is followed
by `skip`. -/
def sequence : List Stmt → Stmt
  | [] => .skip
  | [s] => .seq s .skip
  | s :: t :: rest => rest.foldl .seq (.seq s t)

/-- The statements of a chain in the order of execution. -/
def leaves : Stmt → List Stmt
  | .seq s t => leaves s ++ leaves t
  | s => [s]

/-- The names of a list with `x` at its end, unless it is there. -/
def addName (x : String) (names : List String) : List String :=
  if x ∈ names then names else names ++ [x]

/-- The names of a list followed by the variables that a statement writes, each once. -/
def addWritten (names : List String) : Stmt → List String
  | .assign x _ | .havoc x => addName x names
  | .seq s t => addWritten (addWritten names s) t
  | .branch _ s t => addWritten (addWritten names s) t
  | .loop _ _ s => addWritten names s
  | .skip | .assume _ | .assert _ => names

/-- The variables that a statement writes, in the order of their first assignments. -/
def writtenVars (s : Stmt) : List String := addWritten [] s

/-- Whether a loop occurs in a statement. -/
def hasLoop : Stmt → Bool
  | .loop .. => true
  | .seq s t => hasLoop s || hasLoop t
  | .branch _ s t => hasLoop s || hasLoop t
  | _ => false

/-- The indentation of a level, four spaces for each. -/
def indent (level : Nat) : String := String.ofList (List.replicate (4 * level) ' ')

/-- The lines of a statement at an indentation, each with its line break. -/
def renderAt (level : Nat) : Stmt → String
  | .skip => s!"{indent level}Skip()\n"
  | .havoc x => s!"{indent level}Havoc({x})\n"
  | .assign x e =>
    s!"{indent level}Assign(\n{indent (level + 1)}{x}\n{indent (level + 1)}{e.render}\n" ++
      s!"{indent level})\n"
  | .assume e => s!"{indent level}Assume(\n{indent (level + 1)}{e.render}\n{indent level})\n"
  | .assert e => s!"{indent level}Assert(\n{indent (level + 1)}{e.render}\n{indent level})\n"
  | .seq s t =>
    s!"{indent level}Seq(\n" ++ renderAt (level + 1) s ++ renderAt (level + 1) t ++
      s!"{indent level})\n"
  | .branch c s t =>
    s!"{indent level}If(\n{indent (level + 1)}{c.render}\n" ++ renderAt (level + 1) s ++
      renderAt (level + 1) t ++ s!"{indent level})\n"
  | .loop invariants c s =>
    s!"{indent level}While(\n{indent (level + 1)}{c.render}\n" ++
      s!"{indent (level + 1)}Invariants: [" ++ ", ".intercalate (invariants.map Expr.render) ++
      "]\n" ++ renderAt (level + 1) s ++ s!"{indent level})\n"

/-- The tree of a statement, one node to a line. -/
def render (s : Stmt) : String := renderAt 0 s

end Stmt

end Precond
