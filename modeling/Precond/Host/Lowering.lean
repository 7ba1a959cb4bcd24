import Precond.Grammar.Assertion
import Precond.Host.Module
import Precond.Program.LoopCut

/-!
# From programs to statements of the verifier

`Expr.lower` and `Stmt.lower` carry a program over to the expressions and statements on which
verification works. An assignment to a cell of a list becomes an assignment of a list in which that
cell is changed. A call such as `assume("...")` or `invariant("...")`, for the names that are
accepted, is an annotation: its text is an assertion.

What has no counterpart is refused at its place.
-/

namespace Precond.Host

namespace Expr

mutual

/-- The expression of the verifier. -/
def lower : Expr → Except Error Precond.Expr
  | .name _ x => .ok (.var x)
  | .int _ n => .ok (.int n)
  | .bool _ b => .ok (.bool b)
  | .str span _ => .error (.unsupported .stringLiteral (some span))
  | .list span _ => .error (.unsupported .listLiteral (some span))
  | .binary _ op l r => do
    let l ← lower l
    let r ← lower r
    return .binary op l r
  | .unary _ op e => do
    let e ← lower e
    return .unary op e
  | .chain _ op first rest => do
    let first ← lower first
    let rest ← lowerAll rest
    return rest.foldl (.binary op) first
  | .compare span left rest =>
    match rest with
    | [(op, right)] => do
      let left ← lower left
      let right ← lower right
      return .binary op left right
    | _ => .error (.unsupported .comparisonChain (some span))
  | .call _ f args => do
    if f.node ≠ "len" then throw (.unsupported (.functionCall f.node) (some f.span))
    let args ← lowerAll args
    return .call f.node args
  | .subscript _ b i => do
    let b ← lower b
    let i ← lower i
    return .subscript b i
  | .slice _ l u s => do
    let l ← lowerOption l
    let u ← lowerOption u
    let s ← lowerOption s
    return .sliceOf l u s

/-- The expressions of the verifier for those of a list. -/
def lowerAll : List Expr → Except Error (List Precond.Expr)
  | [] => .ok []
  | e :: es => do
    let e ← lower e
    let es ← lowerAll es
    return e :: es

/-- The expression of the verifier for one that may be left out. -/
def lowerOption : Option Expr → Except Error (Option Precond.Expr)
  | none => .ok none
  | some e => do
    let e ← lower e
    return some e

end

/-- Whether an expression is a slice. -/
def isSlice : Expr → Bool
  | .slice .. => true
  | _ => false

/-- The variable and the value that an assignment of `value` to a target comes down to: assigning to
a cell assigns the list with that cell changed. -/
def assignment (value : Precond.Expr) : Expr → Except Error (String × Precond.Expr)
  | .name _ x => .ok (x, value)
  | .subscript span base index => do
    if index.isSlice then throw (.unsupported .sliceAssignment (some span))
    let b ← base.lower
    let i ← index.lower
    assignment (.call "store" [b, i, value]) base
  | e => .error (.unsupported .assignmentTarget (some e.span))

end Expr

/-- A call that carries an assertion. -/
structure Note where
  /-- What the assertion is for. -/
  purpose : String
  /-- The assertion. -/
  text : String
  /-- Where the text of the assertion begins. -/
  start : Nat
  deriving DecidableEq, Repr

namespace Stmt

/-- The annotation that a statement is, if it is a call of an accepted name. -/
def asNote (accepted : List String) : Stmt → Except Error (Option Note)
  | .expr _ (.call span f args) =>
    if f.node ∈ accepted then
      match args with
      | [.str place text] => .ok (some ⟨f.node, text, place.start + 1⟩)
      | _ => .error (.parse (.annotationArgument f.node) (some span))
    else .ok none
  | _ => .ok none

end Stmt

/-- The assertion of an annotation; errors in it point into the program. -/
def Note.parse (a : Note) : Naming Precond.Expr :=
  ExceptT.adapt (Error.shift a.start) (Grammar.Assertion.parse a.text)

namespace Stmt

/-- The statement for an expression on a line of its own. -/
def lowerNote (span : Span) (e : Expr) : Option Note → Naming Precond.Stmt
  | some a =>
    if a.purpose = "assume" then return .assume (← a.parse)
    else if a.purpose = "invariant" then throw (.unsupported .invariantOutsideLoop (some span))
    else throw (.unsupported (.annotationInBody a.purpose) (some span))
  | none =>
    match e with
    | .call place f _ => throw (.unsupported (.functionCall f.node) (some place))
    | e => throw (.unsupported .idleExpression (some e.span))

mutual

/-- The statement of the verifier. A result is of no concern to it. -/
def lower (accepted : List String) : Stmt → Naming Precond.Stmt
  | .pass _ | .give _ _ => return .skip
  | .assign _ target value => do
    let value ← Naming.ofExcept value.lower
    let (x, e) ← Naming.ofExcept (target.assignment value)
    return .assign x e
  | .branch _ cond body orelse => do
    let cond ← Naming.ofExcept cond.lower
    let body ← lowerAll accepted body
    let orelse ← lowerAll accepted orelse
    return .branch cond (.sequence body) (.sequence orelse)
  | .loop _ cond body => do
    let cond ← Naming.ofExcept cond.lower
    let (invariants, body) ← lowerLoop accepted body
    return .loop invariants cond (.sequence body)
  | .assert _ cond => do
    let cond ← Naming.ofExcept cond.lower
    return .assert cond
  | .expr span e => do
    let note ← Naming.ofExcept (asNote accepted (.expr span e))
    lowerNote span e note

/-- The statements of the verifier for those of a list. -/
def lowerAll (accepted : List String) : List Stmt → Naming (List Precond.Stmt)
  | [] => return []
  | s :: ss => do
    let s ← lower accepted s
    let ss ← lowerAll accepted ss
    return s :: ss

/-- The invariants that stand directly in the body of a loop, and its other statements. -/
def lowerLoop (accepted : List String) :
    List Stmt → Naming (List Precond.Expr × List Precond.Stmt)
  | [] => return ([], [])
  | s :: ss => do
    let note ← Naming.ofExcept (asNote accepted s)
    match note.filter (·.purpose = "invariant") with
    | some a =>
      let e ← a.parse
      let (invariants, body) ← lowerLoop accepted ss
      return (e :: invariants, body)
    | none =>
      let s ← lower accepted s
      let (invariants, body) ← lowerLoop accepted ss
      return (invariants, s :: body)

end

/-- The statement of the verifier for a block. -/
def lowerBlock (accepted : List String) (body : List Stmt) : Naming Precond.Stmt := do
  return .sequence (← lowerAll accepted body)

/-- The statement of the verifier for the body of a function, with its loops cut. -/
def lowerBody (accepted : List String) (body : List Stmt) : Naming Precond.Stmt := do
  let s ← lowerBlock accepted body
  s.cutLoops

end Stmt

end Precond.Host
