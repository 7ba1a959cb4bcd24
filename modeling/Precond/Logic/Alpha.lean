import Precond.Logic.Subst

/-!
# Fresh names

A `Supply` hands out names that no source text can contain: a stem, a dollar sign and a number that
grows with every name. `Expr.alphaRename` gives every quantifier of an expression a variable of its
own from the supply, the inner ones before the outer ones, so that no two quantifiers share a name.
-/

namespace Precond

/-- A supply of fresh names. -/
structure Supply where
  /-- The number of names handed out. -/
  used : Nat := 0
  deriving DecidableEq, Repr, Inhabited

/-- The part of a name before its first dollar sign. -/
def Name.stem (x : String) : String := String.ofList (x.toList.takeWhile (· ≠ '$'))

/-- The generated name with a stem and a number. -/
def Name.numbered (stem : String) (k : Nat) : String := s!"{stem}${k}"

/-- The next fresh name with the stem of `x`. -/
def Supply.fresh (x : String) : StateM Supply String := fun s =>
  (Name.numbered (Name.stem x) (s.used + 1), { used := s.used + 1 })

namespace Expr

mutual

/-- The expression with a fresh variable for each of its quantifiers. -/
def alphaRename : Expr → StateM Supply Expr
  | .var x => pure (.var x)
  | .lit v => pure (.lit v)
  | .binary op l r => do
    let l ← alphaRename l
    let r ← alphaRename r
    return .binary op l r
  | .unary op e => do
    let e ← alphaRename e
    return .unary op e
  | .subscript b i => do
    let b ← alphaRename b
    let i ← alphaRename i
    return .subscript b i
  | .slice l u s => do
    let l ← alphaRename l
    let u ← alphaRename u
    let s ← alphaRename s
    return .slice l u s
  | .sliceFrom l s => do
    let l ← alphaRename l
    let s ← alphaRename s
    return .sliceFrom l s
  | .call f args => do
    let args ← alphaRenameAll args
    return .call f args
  | .forAll x ty body => do
    let body ← alphaRename body
    let y ← Supply.fresh x
    return .forAll y ty (body.subst x (.var y))

/-- The expressions of a list with a fresh variable for each of their quantifiers. -/
def alphaRenameAll : List Expr → StateM Supply (List Expr)
  | [] => pure []
  | e :: es => do
    let e ← alphaRename e
    let es ← alphaRenameAll es
    return e :: es

end

end Expr

end Precond
