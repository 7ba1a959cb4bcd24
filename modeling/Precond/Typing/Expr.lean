import Precond.Typing.Env

/-!
# Types of expressions

`inferWithin` finds the type of an expression and `checkWithin` makes sure that it has a given one.
Both may make the types of variables more precise: a variable that is used as a number is one. They
give back the expression with the types of its quantified variables filled in; such a type has to
be settled when the body has been checked.

Each is called on parts of the expression, or by the other on the expression itself, so they are
bounded by twice its height: see `Expr.checkDepth`.
-/

namespace Precond

/-- The types of the arguments and the result of a built-in function, for a type of elements. -/
def builtinSignature? (f : String) (elem : Ty) : Option (List Ty × Ty) :=
  match f with
  | "len" => some ([.array elem], .int)
  | "store" => some ([.array elem, .int, elem], .array elem)
  | _ => none

/-- The names of the built-in functions. -/
def builtinNames : List String := ["len", "store"]

/-- The types of the operands and of the result of an operator. -/
def Op.types (op : Op) : Ty × Ty :=
  match op.kind with
  | .arithmetic => (.int, .int)
  | .comparison => (.int, .bool)
  | .logical => (.bool, .bool)

namespace Expr

/-- Checks the members of a list against types, one by one. -/
def checkEach (check : Ty → Expr → Checking Expr) : List Ty → List Expr → Checking (List Expr)
  | ty :: tys, e :: es => do
    let e ← check ty e
    let es ← checkEach check tys es
    return e :: es
  | _, es => return es

/-- The type of the elements of a list argument, and the argument. -/
def elementType (infer : Expr → Checking (Ty × Expr)) (check : Ty → Expr → Checking Expr)
    (e : Expr) : Checking (Ty × Expr) := do
  let e ← check (.array .unknown) e
  let (ty, e) ← infer e
  match ty with
  | .array elem => return (elem, e)
  | _ => return (.unknown, e)

/-- Finds the type of elements at which a built-in function is called: that of its list, or else
that of the value to be stored. -/
def callElement (infer : Expr → Checking (Ty × Expr)) (check : Ty → Expr → Checking Expr)
    (f : String) : List Expr → Checking (Ty × List Expr)
  | [] => return (.unknown, [])
  | list :: args => do
    let (elem, list) ← elementType infer check list
    if f = "store" && !elem.isConcrete then
      match args with
      | [i, value] =>
        let (found, value) ← infer value
        return (elem.refine found, [list, i, value])
      | args => return (elem, list :: args)
    else return (elem, list :: args)

/-- The result type of a call of a built-in function, and its arguments. -/
def inferCall (infer : Expr → Checking (Ty × Expr)) (check : Ty → Expr → Checking Expr)
    (f : String) (args : List Expr) : Checking (Ty × List Expr) := do
  if (builtinSignature? f .unknown).isNone then
    throw (.type (.unknownFunction f (Name.suggestion? f builtinNames)) none)
  let (elem, args) ← callElement infer check f args
  match builtinSignature? f elem with
  | none => throw (.type (.unknownFunction f none) none)
  | some (params, result) =>
    if params.length ≠ args.length then
      throw (.type (.arity f params.length args.length) none)
    let args ← checkEach check params args
    return (result, args)

mutual

/-- The type of an expression, with the expression, for a bound on the depth of calls. -/
def inferWithin : (depth : Nat) → Expr → Checking (Ty × Expr)
  | 0, _ => throw (.type .tooDeep none)
  | depth + 1, e =>
    match e with
    | .lit (.int n) => return (.int, .lit (.int n))
    | .lit (.bool b) => return (.bool, .lit (.bool b))
    | .var x => do
      let ty ← Checking.lookup x
      return (ty, .var x)
    | .binary op l r => do
      let l ← checkWithin depth op.types.1 l
      let r ← checkWithin depth op.types.1 r
      return (op.types.2, .binary op l r)
    | .unary op e => do
      let e ← checkWithin depth op.types.1 e
      return (op.types.2, .unary op e)
    | .subscript base index => do
      if index.isSlice then
        let index ← checkWithin depth .slice index
        let base ← checkWithin depth (.array .unknown) base
        let (ty, base) ← inferWithin depth base
        return (ty, .subscript base index)
      let index ← checkWithin depth .int index
      let (ty, base) ← inferWithin depth base
      match ty with
      | .array elem => return (elem, .subscript base index)
      | .unknown => return (.unknown, .subscript base index)
      | other => throw (.type (.notSubscriptable base other) none)
    | .slice lower upper step => do
      let lower ← checkWithin depth .int lower
      let upper ← checkWithin depth .int upper
      let step ← checkWithin depth .int step
      return (.slice, .slice lower upper step)
    | .sliceFrom lower step => do
      let lower ← checkWithin depth .int lower
      let step ← checkWithin depth .int step
      return (.slice, .sliceFrom lower step)
    | .call f args => do
      let (ty, args) ← inferCall (inferWithin depth) (checkWithin depth) f args
      return (ty, .call f args)
    | .forAll x ty body => do
      let (result, found) ←
        Checking.withBinder x (ty.getD .unknown) (checkWithin depth .bool body)
      match result, found with
      | .error err, _ => throw err
      | .ok body, some found =>
        if found.isConcrete then return (.bool, .forAll x (some found) body)
        else throw (.type (.unresolvedQuantifier x) none)
      | .ok _, none => throw (.type (.unresolvedQuantifier x) none)

/-- The expression, if it has the expected type, for a bound on the depth of calls. -/
def checkWithin : (depth : Nat) → Ty → Expr → Checking Expr
  | 0, _, _ => throw (.type .tooDeep none)
  | depth + 1, expected, e =>
    match e with
    | .var x => do
      let current ← Checking.lookup x
      Checking.compare (.var x) expected current
      modify (·.insert x (current.refine expected))
      return .var x
    | .subscript base index => do
      if index.isSlice then
        let (found, e) ← inferWithin depth (.subscript base index)
        Checking.compare e expected found
        return e
      let index ← checkWithin depth .int index
      let base ← checkWithin depth (.array expected) base
      return .subscript base index
    | e => do
      let (found, e) ← inferWithin depth e
      Checking.compare e expected found
      return e

end

/-- A bound on the depth of calls that an expression needs. -/
def checkDepth (e : Expr) : Nat := 2 * e.height + 2

/-- The type of an expression, with the expression. -/
def infer (e : Expr) : Checking (Ty × Expr) := inferWithin e.checkDepth e

/-- The expression, if it has the expected type. -/
def check (expected : Ty) (e : Expr) : Checking Expr := checkWithin e.checkDepth expected e

end Expr

end Precond
