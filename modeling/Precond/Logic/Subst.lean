import Precond.Logic.Expr

/-!
# Substitution

`e.subst x r` puts `r` for the free occurrences of `x` in `e`. A binder of `e` that occurs free
in `r` would capture it, so such a binder is renamed first: `Name.primed` adds primes to the name
until it is free neither in `r` nor in the body.

Renaming a binder is itself a substitution in the body, followed by the substitution proper in the
renamed body. The recursion is therefore on the height of the expression, which putting one
variable for another keeps.
-/

namespace Precond

/-- The first of `x'`, `x''`, … that is not in `taken`, looking at no more than `n` of them before
giving the next one unseen. -/
def Name.primedWithin (taken : List String) : Nat → String → String
  | 0, x => x.push '\''
  | n + 1, x =>
    let y := x.push '\''
    if y ∈ taken then primedWithin taken n y else y

/-- The first of `x'`, `x''`, … that is not in `taken`. One of the first `taken.length + 1` is not,
since they are all different. -/
def Name.primed (taken : List String) (x : String) : String :=
  primedWithin taken taken.length x

namespace Expr

/-- Substitution in expressions of height at most `n`. -/
def substWithin : Nat → String → Expr → Expr → Expr
  | 0, _, _, e => e
  | n + 1, x, r, e =>
    match e with
    | .var y => if y = x then r else .var y
    | .lit v => .lit v
    | .binary op a b => .binary op (substWithin n x r a) (substWithin n x r b)
    | .unary op a => .unary op (substWithin n x r a)
    | .subscript a i => .subscript (substWithin n x r a) (substWithin n x r i)
    | .slice l u s => .slice (substWithin n x r l) (substWithin n x r u) (substWithin n x r s)
    | .sliceFrom l s => .sliceFrom (substWithin n x r l) (substWithin n x r s)
    | .call f args => .call f (args.map (substWithin n x r))
    | .forAll y ty body =>
      if y = x then .forAll y ty body
      else if y ∈ r.freeVars then
        let z := Name.primed (r.freeVars ++ body.freeVars) y
        .forAll z ty (substWithin n x r (substWithin n y (.var z) body))
      else .forAll y ty (substWithin n x r body)

/-- The expression `e` with `r` for the free occurrences of `x`; no variable of `r` is captured. -/
def subst (e : Expr) (x : String) (r : Expr) : Expr := substWithin e.height x r e

end Expr

end Precond
