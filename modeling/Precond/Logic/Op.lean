/-!
# Operators

The operators of assertions and programs, the way they are written, and the sorts of operands they
take. One type serves unary and binary use, since `-` is both.
-/

namespace Precond

/-- An operator of the assertion language. -/
inductive Op where
  | add | sub | mul | div | mod | neg
  | eq | ne | lt | le | gt | ge
  | and | or | not | implies | iff
  deriving DecidableEq, Repr

/-- What an operator takes and gives. -/
inductive OpKind where
  /-- Numbers to a number. -/
  | arithmetic
  /-- Numbers to a truth value. -/
  | comparison
  /-- Truth values to a truth value. -/
  | logical
  deriving DecidableEq, Repr

namespace Op

/-- What an operator takes and gives. -/
def kind : Op → OpKind
  | .add | .sub | .mul | .div | .mod | .neg => .arithmetic
  | .eq | .ne | .lt | .le | .gt | .ge => .comparison
  | .and | .or | .not | .implies | .iff => .logical

/-- Whether an operator takes one operand. -/
def isUnary : Op → Bool
  | .neg | .not => true
  | _ => false

/-- The way an operator is written. -/
def symbol : Op → String
  | .add => "+"
  | .sub => "-"
  | .neg => "-"
  | .mul => "*"
  | .div => "//"
  | .mod => "%"
  | .eq => "=="
  | .ne => "!="
  | .lt => "<"
  | .le => "<="
  | .gt => ">"
  | .ge => ">="
  | .and => "and"
  | .or => "or"
  | .not => "not"
  | .implies => "==>"
  | .iff => "<==>"

end Op

end Precond
