import Precond.Grammar.TypeExpr

/-!
# Programs as they are written

The syntax tree of a program. Every part keeps the range of text it was read from, so that a
diagnostic can point at it. Chains are kept flat: the operands of `and` and `or`, and comparisons
such as `a < b <= c`. An `elif` is a branch inside the other branch.
-/

namespace Precond.Host

/-- An expression of a program. -/
inductive Expr where
  | name (span : Span) (x : String)
  | int (span : Span) (n : Nat)
  | bool (span : Span) (b : Bool)
  | str (span : Span) (text : String)
  | binary (span : Span) (op : Op) (left right : Expr)
  | unary (span : Span) (op : Op) (operand : Expr)
  /-- Operands with one of `and` and `or` between them. -/
  | chain (span : Span) (op : Op) (first : Expr) (rest : List Expr)
  /-- Comparisons of an expression with the next one, and so on. -/
  | compare (span : Span) (first : Expr) (rest : List (Op × Expr))
  | call (span : Span) (function : Spanned String) (args : List Expr)
  | subscript (span : Span) (base index : Expr)
  | slice (span : Span) (lower upper step : Option Expr)
  | list (span : Span) (items : List Expr)
  deriving Repr

/-- Where an expression stands. -/
def Expr.span : Expr → Span
  | .name span _ | .int span _ | .bool span _ | .str span _ | .binary span _ _ _
  | .unary span _ _ | .chain span _ _ _ | .compare span _ _ | .call span _ _
  | .subscript span _ _ | .slice span _ _ _ | .list span _ => span

/-- A statement of a program. -/
inductive Stmt where
  | assign (span : Span) (target value : Expr)
  | branch (span : Span) (cond : Expr) (body orelse : List Stmt)
  | loop (span : Span) (cond : Expr) (body : List Stmt)
  | give (span : Span) (value : Option Expr)
  | pass (span : Span)
  | assert (span : Span) (cond : Expr)
  | expr (span : Span) (e : Expr)
  deriving Repr

/-- Where a statement stands. -/
def Stmt.span : Stmt → Span
  | .assign span _ _ | .branch span _ _ _ | .loop span _ _ | .give span _ | .pass span
  | .assert span _ | .expr span _ => span

/-- A mark in front of a function, with named arguments. -/
structure Decorator where
  /-- The name behind the `@`. -/
  name : Spanned String
  /-- The arguments with their names. -/
  arguments : List (Spanned String × Expr)
  /-- Where it stands, without the line break. -/
  span : Span
  deriving Repr

/-- A parameter of a function. -/
structure Param where
  /-- Its name. -/
  name : Spanned String
  /-- Its type, if one is written. -/
  type : Option Grammar.TypeExpr
  deriving Repr

/-- A function of a program. -/
structure Function where
  /-- The marks in front of it. -/
  decorators : List Decorator
  /-- Its name. -/
  name : Spanned String
  /-- Its parameters. -/
  params : List Param
  /-- The type of its result, if one is written. -/
  result : Option Grammar.TypeExpr
  /-- Its statements. -/
  body : List Stmt
  /-- Where it stands, with its decorators. -/
  span : Span
  deriving Repr

/-- What a program consists of. -/
inductive Item where
  | function (f : Function)
  | stmt (s : Stmt)
  deriving Repr

end Precond.Host
