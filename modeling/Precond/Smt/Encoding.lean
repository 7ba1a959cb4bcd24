import Precond.Smt.Term
import Precond.Typing.Env

/-!
# Encoding for the solver

`encode` writes an expression as a term. A program variable `x` is the constant `v_x`, which keeps
it apart from the words of SMT-LIB and from the functions declared here. Division and remainder
round down, and are defined on the operations of SMT-LIB, whose remainder is never negative. The
length of an array is a function for each sort of arrays, of which two facts are declared: it is
not negative, and storing a value does not change it.

`declarations` collects what has to be declared for a list of formulas.
-/

namespace Precond.Smt

/-- The sort of the values of a type. -/
def SmtSort.ofTy : Ty → Except Error SmtSort
  | .int => .ok .int
  | .bool => .ok .bool
  | .array elem => do
    let s ← ofTy elem
    return .array s
  | .unknown => .error (.type .unresolvedSort none)
  | ty => .error (.unsupported (.noSort ty) none)

/-- Whether a character may stand in a symbol without bars. -/
def isSymbolChar (c : Char) : Bool :=
  c.isAlphanum || "~!@$%^&*_-+=<>.?/".toList.contains c

/-- The symbol of a program variable, between bars if need be. -/
def symbol (x : String) : String :=
  if x.toList.all isSymbolChar then s!"v_{x}" else s!"|v_{x}|"

/-! ## Declarations -/

/-- Division and remainder that round down. -/
def preamble : List Declaration :=
  let a := Term.symbol "a"
  let b := Term.symbol "b"
  let negA := Term.app .minus [a]
  let negB := Term.app .minus [b]
  let params := [("a", SmtSort.int), ("b", SmtSort.int)]
  let positive := Term.app .atLeast [b, .int 0]
  [ .define "floor_div" params .int
      (.app .ite [positive, .app .div [a, b], .app .div [negA, negB]]),
    .define "floor_mod" params .int
      (.app .ite [positive, .app .mod [a, b], .app .minus [.app .mod [negA, negB]]]) ]

/-- The length function of a sort of arrays, with its facts. -/
def lenDeclarations : SmtSort → List Declaration
  | .array elem =>
    let array := SmtSort.array elem
    let a := Term.symbol "a"
    let len := fun t => Term.app (.len array) [t]
    [ .function array.lenName [array] .int,
      .fact (.forAll [("a", array)] (.app .atLeast [len a, .int 0])),
      .fact (.forAll [("a", array), ("i", .int), ("v", elem)]
        (.app .equal [len (.app .store [a, .symbol "i", .symbol "v"]), len a])) ]
  | _ => []

/-- A sort and the sorts inside it, as far as they are sorts of arrays. -/
def SmtSort.arrays : SmtSort → List SmtSort
  | .array elem => .array elem :: arrays elem
  | _ => []

mutual

/-- The sorts of arrays that the quantifiers of an expression range over. -/
def quantifierSorts : Expr → Except Error (List SmtSort)
  | .var _ | .lit _ => .ok []
  | .binary _ l r => do
    let ls ← quantifierSorts l
    let rs ← quantifierSorts r
    return ls ++ rs
  | .unary _ e => quantifierSorts e
  | .subscript b i => do
    let bs ← quantifierSorts b
    let is ← quantifierSorts i
    return bs ++ is
  | .slice l u s => do
    let ls ← quantifierSorts l
    let us ← quantifierSorts u
    let ss ← quantifierSorts s
    return ls ++ us ++ ss
  | .sliceFrom l s => do
    let ls ← quantifierSorts l
    let ss ← quantifierSorts s
    return ls ++ ss
  | .call _ args => quantifierSortsAll args
  | .forAll _ ty body => do
    let own ← ty.mapM SmtSort.ofTy
    let inner ← quantifierSorts body
    return (own.elim [] SmtSort.arrays) ++ inner

/-- The sorts of arrays that the quantifiers of the members of a list range over. -/
def quantifierSortsAll : List Expr → Except Error (List SmtSort)
  | [] => .ok []
  | e :: es => do
    let s ← quantifierSorts e
    let ss ← quantifierSortsAll es
    return s ++ ss

end

/-- The sort of a free variable. -/
def constantSort (env : TypeEnv) (x : String) : Except Error SmtSort :=
  match env.get? x with
  | none => .error (.type (.undefinedInObligation x) none)
  | some ty =>
    if ty.isConcrete then SmtSort.ofTy ty else .error (.type (.unresolvedVariable x) none)

/-- What has to be declared for a list of formulas: the preamble, a constant for each free variable,
and the length function for each sort of arrays. -/
def declarations (env : TypeEnv) (formulas : List Expr) : Except Error (List Declaration) := do
  let quantified ← quantifierSortsAll formulas
  let constants ← (Name.sorted (Expr.freeVarsAll formulas)).mapM fun x => do
    let sort ← constantSort env x
    return (x, sort)
  let arrays := SmtSort.sorted (quantified ++ constants.flatMap (·.2.arrays))
  return preamble ++ constants.map (fun (x, sort) => .const (symbol x) sort) ++
    arrays.flatMap lenDeclarations

/-! ## Terms -/

/-- The type of a variable, that of the innermost quantifier first. -/
def varType (env : TypeEnv) (bound : List (String × Ty)) (x : String) : Except Error Ty :=
  match bound.find? (·.1 = x) with
  | some (_, ty) => .ok ty
  | none =>
    match env.get? x with
    | some ty => .ok ty
    | none => .error (.type (.undefinedVariable x none) none)

/-- The type of an expression that has been checked. -/
def typeOf (env : TypeEnv) (bound : List (String × Ty)) : Expr → Except Error Ty
  | .var x => varType env bound x
  | .lit (.int _) => .ok .int
  | .lit (.bool _) => .ok .bool
  | .binary op _ _ | .unary op _ => .ok (if op.kind = .arithmetic then .int else .bool)
  | .subscript base _ => do
    match ← typeOf env bound base with
    | .array elem => return elem
    | other => .error (.type (.notSubscriptableValue other) none)
  | .slice .. | .sliceFrom .. => .ok .slice
  | .call f args =>
    match f, args with
    | "len", _ => .ok .int
    | "store", list :: _ => typeOf env bound list
    | f, _ => .error (.unsupported (.functionValue f) none)
  | .forAll .. => .ok .bool

/-- The term for a binary operation. -/
def binaryTerm (op : Op) (l r : Term) : Term :=
  match op with
  | .add => .app .plus [l, r]
  | .sub | .neg => .app .minus [l, r]
  | .mul => .app .times [l, r]
  | .div => .app .floorDiv [l, r]
  | .mod => .app .floorMod [l, r]
  | .eq | .iff => .app .equal [l, r]
  | .ne => .negate (.app .equal [l, r])
  | .lt => .app .less [l, r]
  | .le => .app .atMost [l, r]
  | .gt => .app .greater [l, r]
  | .ge => .app .atLeast [l, r]
  | .and => .app .and [l, r]
  | .or => .app .or [l, r]
  | .not => .app .not [l, r]
  | .implies => .app .implies [l, r]

/-- The term for a unary operation. -/
def unaryTerm (op : Op) (t : Term) : Term :=
  match op with
  | .not => .negate t
  | _ => .app .minus [t]

mutual

/-- The term for an expression. -/
def encode (env : TypeEnv) (bound : List (String × Ty)) : Expr → Except Error Term
  | .var x => .ok (.symbol (symbol x))
  | .lit (.int n) => .ok (.int n)
  | .lit (.bool b) => .ok (.bool b)
  | .binary op l r => do
    let l ← encode env bound l
    let r ← encode env bound r
    return binaryTerm op l r
  | .unary op e => do
    let t ← encode env bound e
    return unaryTerm op t
  | .subscript base index => do
    if index.isSlice then throw (.unsupported (.encodedSlice (.subscript base index)) none)
    let base ← encode env bound base
    let index ← encode env bound index
    return .app .select [base, index]
  | .slice l u s => .error (.unsupported (.encodedSlice (.slice l u s)) none)
  | .sliceFrom l s => .error (.unsupported (.encodedSlice (.sliceFrom l s)) none)
  | .call f args => do
    let terms ← encodeAll env bound args
    match f, args, terms with
    | "len", [list], [t] =>
      let sort ← SmtSort.ofTy (← typeOf env bound list)
      return .app (.len sort) [t]
    | "store", [_, _, _], terms => return .app .store terms
    | f, args, _ => throw (.unsupported (.encodedCall f args.length) none)
  | .forAll x ty body =>
    match ty with
    | none => .error (.type (.untypedQuantifier x) none)
    | some ty => do
      let sort ← SmtSort.ofTy ty
      let body ← encode env ((x, ty) :: bound) body
      return .forAll [(symbol x, sort)] body

/-- The terms for the expressions of a list. -/
def encodeAll (env : TypeEnv) (bound : List (String × Ty)) : List Expr → Except Error (List Term)
  | [] => .ok []
  | e :: es => do
    let t ← encode env bound e
    let ts ← encodeAll env bound es
    return t :: ts

end

end Precond.Smt
