import Precond.Error
import Precond.Grammar.Lexeme
import Precond.Grammar.TypeExpr

/-!
# The assertion language

From the loosest to the tightest, the levels of an assertion are `<==>` and `==>`, which nest to the
right, `or`, `and`, which nest to the left, `not` and the quantifiers, one comparison, sums,
products, remainders, negation, and subscripts. A quantifier reaches as far to the right as it can,
so it stands only as the last operand of a chain or in parentheses.

Each level is a parser made from the next one. What stands in brackets starts again from the top;
`sumWithin` and `formulaWithin` close this circle for any depth of brackets.
-/

namespace Precond.Grammar.Assertion

open Precond.Grammar.Parser

/-- The product or floor division that a token stands for. -/
def multiplicative? : Token → Option Op
  | .star => some .mul
  | .slashSlash => some .div
  | _ => none

/-- The remainder that a token stands for. -/
def remainder? : Token → Option Op
  | .percent => some .mod
  | _ => none

/-- The conjunction that a token stands for. -/
def conjunctive? : Token → Option Op
  | .kwAnd => some .and
  | _ => none

/-- The disjunction that a token stands for. -/
def disjunctive? : Token → Option Op
  | .kwOr => some .or
  | _ => none

/-- Reads operands of one level with operators between them, which nest to the left. -/
def leftLevel (op? : Token → Option Op) (operand : Parser Expr) : Parser Expr := do
  let first ← operand
  let rest ← repeatWhile (operation? op? operand)
  return rest.foldl (fun l (op, r, _) => .binary op l r) first

/-- Reads a literal, a variable, a call or a formula in parentheses. -/
def primary (formula : Parser Expr) : Parser Expr := do
  match ← peek with
  | some (.int n) =>
    advance
    return .int n
  | some .kwTrue =>
    advance
    return .bool true
  | some .kwFalse =>
    advance
    return .bool false
  | some (.ident x) =>
    advance
    if ← accept .lParen then return .call x (← commaList formula .rParen)
    return .var x
  | some .lParen =>
    advance
    let e ← formula
    expect .rParen
    return e
  | _ => unexpected

/-- Reads a sum unless the next token is one of the given ones. -/
def sumUnless (stops : List Token) (sum : Parser Expr) : Parser (Option Expr) := do
  match ← peek with
  | some token => if token ∈ stops then return none else some <$> sum
  | none => some <$> sum

/-- Reads what stands in the brackets of a subscript: an index or a slice. -/
def index (sum : Parser Expr) : Parser Expr := do
  let lower ← sumUnless [.colon, .colonColon] sum
  if ← accept .colon then
    let upper ← sumUnless [.colon, .rBracket] sum
    let step ← if ← accept .colon then sumUnless [.rBracket] sum else pure none
    return .sliceOf lower upper step
  if ← accept .colonColon then
    let step ← sumUnless [.rBracket] sum
    return .sliceOf lower none step
  match lower with
  | some e => return e
  | none => unexpected

/-- Reads one subscript, if there is one. -/
def subscript? (sum : Parser Expr) : Parser (Option Expr) := do
  if ← accept .lBracket then
    let i ← index sum
    expect .rBracket
    return some i
  return none

/-- Reads a primary expression and its subscripts. -/
def subscripted (sum formula : Parser Expr) : Parser Expr := do
  let base ← primary formula
  let indices ← repeatWhile (subscript? sum)
  return indices.foldl .subscript base

/-- Reads an operand behind at most `n` minus signs. -/
def negative (operand : Parser Expr) : (n : Nat) → Parser Expr
  | 0 => operand
  | n + 1 => do
    if ← accept .minus then return .unary .neg (← negative operand n)
    operand

/-- Reads a sum, given parsers for what stands in its brackets. -/
def sum (nestedSum nestedFormula : Parser Expr) : Parser Expr :=
  leftLevel additive? <| leftLevel multiplicative? <| leftLevel remainder? do
    negative (subscripted nestedSum nestedFormula) (← remaining)

/-- Reads a sum or a comparison of two. -/
def relation (sum : Parser Expr) : Parser Expr := do
  let left ← sum
  match ← operation? comparison? sum with
  | some (op, right, _) => return .binary op left right
  | none => return left

/-- Reads a quantified formula from behind its first word. -/
def quantified (formula : Parser Expr) (quantify : String → Option Ty → Expr → Expr) :
    Parser Expr := do
  let x ← name
  let written ← if ← accept .colon then some <$> TypeExpr.parse else pure none
  expect .colonColon
  let ty ← liftM (written.mapM TypeExpr.resolve)
  let body ← formula
  return quantify x.node ty body

/-- Reads a relation or a quantified formula behind at most `n` negations. -/
def negation (sum formula : Parser Expr) : (n : Nat) → Parser Expr
  | 0 => relation sum
  | n + 1 => do
    match ← peek with
    | some .kwNot =>
      advance
      return .not (← negation sum formula n)
    | some .kwForall =>
      advance
      quantified formula .forAll
    | some .kwExists =>
      advance
      quantified formula .thereExists
    | _ => relation sum

/-- Reads a disjunction. -/
def disjunction (sum formula : Parser Expr) : Parser Expr :=
  leftLevel disjunctive? <| leftLevel conjunctive? do negation sum formula (← remaining)

/-- Reads at most `n + 1` operands with one operator between them, which nests to the right. -/
def rightLevel (token : Token) (op : Op) (operand : Parser Expr) : (n : Nat) → Parser Expr
  | 0 => operand
  | n + 1 => do
    let left ← operand
    if ← accept token then return .binary op left (← rightLevel token op operand n)
    return left

/-- Reads a formula, given a parser for its sums and one for the formulas inside it. -/
def formula (sum nested : Parser Expr) : Parser Expr := do
  let n ← remaining
  rightLevel .iff .iff (rightLevel .implies .implies (disjunction sum nested) n) n

mutual

/-- Reads a sum in which brackets are nested less than `depth` deep. -/
def sumWithin : (depth : Nat) → Parser Expr
  | 0 => unexpected
  | depth + 1 => sum (sumWithin depth) (formulaWithin depth)

/-- Reads a formula in which brackets and quantifiers are nested less than `depth` deep. -/
def formulaWithin : (depth : Nat) → Parser Expr
  | 0 => unexpected
  | depth + 1 => formula (sum (sumWithin depth) (formulaWithin depth)) (formulaWithin depth)

end

/-- The expression that a list of tokens stands for. -/
def ofTokens (tokens : List (Spanned Token)) : Except Error Expr :=
  (formulaWithin (tokens.length + 1)).run tokens

/-- The expression that a text stands for, with the variables of its quantifiers as written. -/
def ofText (text : String) : Except Error Expr := do ofTokens (← tokenize text.toList)

/-- The expression that a text stands for, with a fresh variable for each quantifier. Nothing is
drawn if the text is not an assertion. -/
def parse (text : String) : Naming Expr := do
  let e ← Naming.ofExcept (ofText text)
  e.alphaRename

end Precond.Grammar.Assertion
