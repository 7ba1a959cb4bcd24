import Precond.Logic.Alpha
import Precond.Program.Stmt

/-!
# Cutting loops

A loop with invariant `I`, condition `C` and body `S` is replaced by straight-line code that stands
for all of its runs:

* assert `I`, which must hold on entry;
* give every variable that `S` writes any value and assume `I`, which leaves an arbitrary state at
  the head of the loop;
* if `C` holds there, run `S` and assert `I` again, after which this run has shown what it should
  and is stopped by assuming `False`; otherwise go on behind the loop.

Each copy of the invariant gets quantifier names of its own, so the quantifiers of the result are
still all different.
-/

namespace Precond.Stmt

/-- The conjunction of the invariants with fresh quantifier names. -/
def freshInvariant (invariants : List Expr) : StateM Supply Expr := do
  let copies ← Expr.alphaRenameAll invariants
  return Expr.conjoin copies

/-- The statement with every loop replaced by its straight-line form. -/
def cutLoops : Stmt → StateM Supply Stmt
  | .loop invariants cond body => do
    let written := body.writtenVars
    let body ← cutLoops body
    let entry ← freshInvariant invariants
    let head ← freshInvariant invariants
    let again ← freshInvariant invariants
    let taken := sequence [body, .assert again, .assume (.bool false)]
    return sequence
      ([.assert entry] ++ written.map .havoc ++ [.assume head, .branch cond taken .skip])
  | .seq s t => do
    let s ← cutLoops s
    let t ← cutLoops t
    return .seq s t
  | .branch c s t => do
    let s ← cutLoops s
    let t ← cutLoops t
    return .branch c s t
  | s => pure s

end Precond.Stmt
