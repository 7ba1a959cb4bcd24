import Precond.Logic.Ty

/-!
# Terms of the solver

The part of SMT-LIB that obligations are written in: integers, truth values, arrays indexed by
integers, and universal quantifiers. A `Declaration` makes a symbol or a fact known to the solver,
and a `Command` is what is sent to it and answered with an acknowledgement.
-/

namespace Precond.Smt

/-- A sort of values. -/
inductive SmtSort where
  | int
  | bool
  /-- Arrays with integer indices. -/
  | array (elem : SmtSort)
  deriving DecidableEq, Repr

namespace SmtSort

/-- The way a sort is written. -/
def render : SmtSort → String
  | .int => "Int"
  | .bool => "Bool"
  | .array elem => s!"(Array Int {render elem})"

/-- A sort as part of a name. -/
def tag : SmtSort → String
  | .int => "Int"
  | .bool => "Bool"
  | .array elem => s!"Arr_{tag elem}"

/-- Whether a sort comes before another one: integers, truth values, then arrays by their
elements. -/
def before : SmtSort → SmtSort → Bool
  | .int, .int => false
  | .int, _ => true
  | .bool, .array _ => true
  | .bool, _ => false
  | .array a, .array b => before a b
  | .array _, _ => false

/-- Puts a sort into a list in increasing order, unless it is there. -/
def addSorted (s : SmtSort) : List SmtSort → List SmtSort
  | [] => [s]
  | t :: ts => if s = t then t :: ts else if before s t then s :: t :: ts else t :: addSorted s ts

/-- The sorts of a list, each once and in increasing order. -/
def sorted (sorts : List SmtSort) : List SmtSort := sorts.foldl (fun ts s => addSorted s ts) []

/-- The name of the length function for a sort of arrays. -/
def lenName : SmtSort → String
  | .array elem => s!"len_{tag elem}"
  | s => s!"len_{tag s}"

end SmtSort

/-- A function that terms apply. -/
inductive Fn where
  | plus | minus | times
  /-- Division and remainder that round down, which are defined in the preamble. -/
  | floorDiv | floorMod
  /-- Division and remainder with a remainder that is never negative. -/
  | div | mod
  | equal | less | atMost | greater | atLeast
  | and | or | not | implies | ite
  | select | store
  /-- The length of arrays of a sort. -/
  | len (array : SmtSort)
  deriving DecidableEq, Repr

/-- The way a function is written. -/
def Fn.render : Fn → String
  | .plus => "+"
  | .minus => "-"
  | .times => "*"
  | .floorDiv => "floor_div"
  | .floorMod => "floor_mod"
  | .div => "div"
  | .mod => "mod"
  | .equal => "="
  | .less => "<"
  | .atMost => "<="
  | .greater => ">"
  | .atLeast => ">="
  | .and => "and"
  | .or => "or"
  | .not => "not"
  | .implies => "=>"
  | .ite => "ite"
  | .select => "select"
  | .store => "store"
  | .len array => array.lenName

/-- A term. -/
inductive Term where
  | symbol (name : String)
  | int (n : Int)
  | bool (b : Bool)
  | app (f : Fn) (args : List Term)
  | forAll (vars : List (String × SmtSort)) (body : Term)
  deriving Repr

/-- Variables with their sorts, each in parentheses. -/
def renderVars (vars : List (String × SmtSort)) : String :=
  " ".intercalate (vars.map fun (x, s) => s!"({x} {s.render})")

namespace Term

/-- The negation of a term. -/
def negate (t : Term) : Term := .app .not [t]

mutual

/-- The way a term is written; a negative number is written as the negation of a number. -/
def render : Term → String
  | .symbol name => name
  | .int (.ofNat n) => toString n
  | .int (.negSucc n) => s!"(- {n + 1})"
  | .bool true => "true"
  | .bool false => "false"
  | .app f args => "(" ++ f.render ++ " " ++ " ".intercalate (renderAll args) ++ ")"
  | .forAll vars body => s!"(forall ({renderVars vars}) {render body})"

/-- The way the terms of a list are written. -/
def renderAll : List Term → List String
  | [] => []
  | t :: ts => render t :: renderAll ts

end

end Term

/-- What is made known to the solver before the obligations. -/
inductive Declaration where
  | const (name : String) (sort : SmtSort)
  | function (name : String) (params : List SmtSort) (result : SmtSort)
  | define (name : String) (params : List (String × SmtSort)) (result : SmtSort) (body : Term)
  /-- A term that always holds. -/
  | fact (term : Term)
  deriving Repr

/-- The way a declaration is written. -/
def Declaration.render : Declaration → String
  | .const name sort => s!"(declare-const {name} {sort.render})"
  | .function name params result =>
    let params := " ".intercalate (params.map SmtSort.render)
    s!"(declare-fun {name} ({params}) {result.render})"
  | .define name params result body =>
    s!"(define-fun {name} ({renderVars params}) {result.render} {body.render})"
  | .fact term => s!"(assert {term.render})"

/-- What the solver is told. -/
inductive Command where
  | declare (d : Declaration)
  | push
  | pop
  | add (term : Term)
  deriving Repr

/-- The way a command is written. -/
def Command.render : Command → String
  | .declare d => d.render
  | .push => "(push 1)"
  | .pop => "(pop 1)"
  | .add term => s!"(assert {term.render})"

end Precond.Smt
