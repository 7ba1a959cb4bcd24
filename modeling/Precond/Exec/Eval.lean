import Precond.Exec.Arith

/-!
# Evaluation

`eval` gives the value of an expression in a store. `and`, `or` and `==>` look at their right
operand only if the left one does not settle the answer. Quantifiers have a meaning but no value
that a run could compute.
-/

namespace Precond.Exec

/-- Two values may be compared if they are of one kind. -/
def equal (a b : Value) : Except Failure Bool :=
  match a, b with
  | .int m, .int n => .ok (m = n)
  | .bool p, .bool q => .ok (p = q)
  | .list as, .list bs => .ok (as = bs)
  | a, b => .error (.wrongKind a.kindName b.kindName)

/-- A binary operator on two values that are both needed. -/
def applyBinary (op : Op) (a b : Value) : Except Failure Value :=
  match op with
  | .eq => do
    let same ← equal a b
    return .bool same
  | .ne => do
    let same ← equal a b
    return .bool (!same)
  | .iff => do
    let p ← a.asBool
    let q ← b.asBool
    return .bool (p == q)
  | op => do
    let m ← a.asInt
    let n ← b.asInt
    match op with
    | .add => return .int (← checked op.symbol (m + n))
    | .sub => return .int (← checked op.symbol (m - n))
    | .mul => return .int (← checked op.symbol (m * n))
    | .div => return .int (← floorDiv m n)
    | .mod => return .int (← floorMod m n)
    | .lt => return .bool (m < n)
    | .le => return .bool (m ≤ n)
    | .gt => return .bool (m > n)
    | .ge => return .bool (m ≥ n)
    | op => throw (.wrongKind "binary operator" op.symbol)

/-- A unary operator on the value of its operand. -/
def applyUnary (op : Op) (v : Value) : Except Failure Value :=
  match op with
  | .not => do
    let p ← v.asBool
    return .bool (!p)
  | _ => do
    let n ← v.asInt
    return .int (← checked Op.neg.symbol (-n))

/-- A built-in function on its arguments. -/
def applyBuiltin (f : String) (args : List Value) : Except Failure Value :=
  match f, args with
  | "len", [v] => do
    let items ← v.asList
    return .int items.length
  | "store", [v, index, item] => do
    let items ← v.asList
    let i ← position (← index.asInt) items.length
    return .list (items.set i item)
  | f, _ => .error (.undefinedFunction f)

mutual

/-- The value of an expression in a store. -/
def eval (store : Store) : Expr → Except Failure Value
  | .lit v => .ok (.ofLiteral v)
  | .var x =>
    match store.get? x with
    | some v => .ok v
    | none => .error (.undefinedVariable x)
  | .unary op e =>
    if op.isUnary then do
      let v ← eval store e
      applyUnary op v
    else .error (.wrongKind "unary operator" op.symbol)
  | .binary .and l r => do
    let p ← (← eval store l).asBool
    if p then return .bool (← (← eval store r).asBool) else return .bool false
  | .binary .or l r => do
    let p ← (← eval store l).asBool
    if p then return .bool true else return .bool (← (← eval store r).asBool)
  | .binary .implies l r => do
    let p ← (← eval store l).asBool
    if p then return .bool (← (← eval store r).asBool) else return .bool true
  | .binary op l r => do
    let a ← eval store l
    let b ← eval store r
    applyBinary op a b
  | .subscript base (.slice l u s) => do
    let items ← (← eval store base).asList
    let lower ← (← eval store l).asInt
    let upper ← (← eval store u).asInt
    let step ← (← eval store s).asInt
    slice items lower (some upper) step
  | .subscript base (.sliceFrom l s) => do
    let items ← (← eval store base).asList
    let lower ← (← eval store l).asInt
    let step ← (← eval store s).asInt
    slice items lower none step
  | .subscript base index => do
    let items ← (← eval store base).asList
    let i ← (← eval store index).asInt
    let place ← position i items.length
    match items[place]? with
    | some v => return v
    | none => throw (.indexOutOfBounds i items.length)
  | .slice .. | .sliceFrom .. => .error (.notExecutable "a slice outside a subscript")
  | .call f args => do
    let values ← evalAll store args
    applyBuiltin f values
  | .forAll .. => .error (.notExecutable "a quantifier")

/-- The values of a list of expressions in a store. -/
def evalAll (store : Store) : List Expr → Except Failure (List Value)
  | [] => .ok []
  | e :: es => do
    let v ← eval store e
    let vs ← evalAll store es
    return v :: vs

end

/-- The truth value of an expression in a store. -/
def holds (store : Store) (e : Expr) : Except Failure Bool := do
  let v ← eval store e
  v.asBool

end Precond.Exec
