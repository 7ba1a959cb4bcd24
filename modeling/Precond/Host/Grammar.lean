import Precond.Grammar.Layout
import Precond.Host.Tree

/-!
# The grammar of programs

A program is a list of functions and statements. The range of a part runs from the start of its
first token to the end of its last one. Parentheses add nothing to the range of what they hold, but
they count for the part around them; so the range of an operation is taken from the tokens and not
from its operands.

Brackets and blocks may be nested; `Expr.parseWithin` and `Stmt.blockWithin` close the circle for
any depth of them.
-/

namespace Precond.Host

open Grammar Grammar.Parser

/-- The multiplication or division that a token stands for; both divisions round down. -/
def multiplicative? : Token → Option Op
  | .star => some .mul
  | .slashSlash | .slash => some .div
  | .percent => some .mod
  | _ => none

namespace Expr

/-- Reads operands of one level with operators between them, which nest to the left. -/
def leftLevel (op? : Token → Option Op) (operand : Parser Expr) : Parser Expr := do
  let start ← here
  let first ← operand
  let rest ← repeatWhile (operation? op? operand)
  return rest.foldl (fun l (op, r, stop) => .binary ⟨start, stop⟩ op l r) first

/-- Reads a literal, a name or call, a list, or an expression in parentheses. -/
def atom (expr : Parser Expr) : Parser Expr := do
  let start ← here
  match ← peek with
  | some (.int n) =>
    advance
    return .int (← spanFrom start) n
  | some .kwTrue =>
    advance
    return .bool (← spanFrom start) true
  | some .kwFalse =>
    advance
    return .bool (← spanFrom start) false
  | some (.str text) =>
    advance
    return .str (← spanFrom start) text
  | some (.ident x) =>
    advance
    let span ← spanFrom start
    if ← accept .lParen then
      let args ← commaList expr .rParen
      return .call (← spanFrom start) ⟨x, span⟩ args
    return .name span x
  | some .lParen =>
    advance
    let e ← expr
    expect .rParen
    return e
  | some .lBracket =>
    advance
    let items ← commaList expr .rBracket
    return .list (← spanFrom start) items
  | _ => unexpected

/-- Reads an expression unless the next token is one of the given ones. -/
def parseUnless (stops : List Token) (expr : Parser Expr) : Parser (Option Expr) := do
  match ← peek with
  | some token => if token ∈ stops then return none else some <$> expr
  | none => some <$> expr

/-- Reads what stands in the brackets of a subscript: an index or a slice. -/
def index (expr : Parser Expr) : Parser Expr := do
  let start ← here
  let lower ← parseUnless [.colon, .colonColon] expr
  if ← accept .colon then
    let upper ← parseUnless [.colon, .rBracket] expr
    let step ← if ← accept .colon then parseUnless [.rBracket] expr else pure none
    return .slice (← spanFrom start) lower upper step
  if ← accept .colonColon then
    let step ← parseUnless [.rBracket] expr
    return .slice (← spanFrom start) lower none step
  match lower with
  | some e => return e
  | none => unexpected

/-- Reads one subscript, if there is one, and gives it with the end of its brackets. -/
def subscript? (expr : Parser Expr) : Parser (Option (Expr × Nat)) := do
  if ← accept .lBracket then
    let i ← index expr
    expect .rBracket
    return some (i, ← reached)
  return none

/-- Reads an atom and its subscripts. -/
def subscripted (expr : Parser Expr) : Parser Expr := do
  let start ← here
  let base ← atom expr
  let indices ← repeatWhile (subscript? expr)
  return indices.foldl (fun b (i, stop) => .subscript ⟨start, stop⟩ b i) base

/-- Reads an operand behind at most `n` tokens that stand for a unary operator. -/
def prefixed (token : Token) (op : Op) (operand : Parser Expr) : (n : Nat) → Parser Expr
  | 0 => operand
  | n + 1 => do
    let start ← here
    if ← accept token then
      let e ← prefixed token op operand n
      return .unary (← spanFrom start) op e
    operand

/-- Reads a sum. -/
def sum (expr : Parser Expr) : Parser Expr :=
  leftLevel additive? <| leftLevel multiplicative? do
    prefixed .minus .neg (subscripted expr) (← remaining)

/-- Reads a sum, or sums with comparisons between them. -/
def comparison (sum : Parser Expr) : Parser Expr := do
  let start ← here
  let first ← sum
  let rest ← repeatWhile (operation? comparison? sum)
  if rest.isEmpty then return first
  return .compare (← spanFrom start) first (rest.map fun (op, e, _) => (op, e))

/-- Reads an operand behind a token, if that token is next. -/
def linked? (token : Token) (operand : Parser Expr) : Parser (Option Expr) := do
  if ← accept token then some <$> operand else return none

/-- Reads an operand, or operands with one operator between them. -/
def chainLevel (token : Token) (op : Op) (operand : Parser Expr) : Parser Expr := do
  let start ← here
  let first ← operand
  let rest ← repeatWhile (linked? token operand)
  if rest.isEmpty then return first
  return .chain (← spanFrom start) op first rest

/-- Reads an expression in which brackets are nested less than `depth` deep. -/
def parseWithin : (depth : Nat) → Parser Expr
  | 0 => unexpected
  | depth + 1 =>
    chainLevel .kwOr .or <| chainLevel .kwAnd .and do
      prefixed .kwNot .not (comparison (sum (parseWithin depth))) (← remaining)

/-- Reads an expression. -/
def parse : Parser Expr := do parseWithin ((← remaining) + 1)

end Expr

namespace Stmt

/-- Reads a statement that fits on a line, without the line break. -/
def simple : Parser Stmt := do
  let start ← here
  match ← peek with
  | some .kwReturn =>
    advance
    let value ← Expr.parseUnless [.newline] Expr.parse
    return .give (← spanFrom start) value
  | some .kwPass =>
    advance
    return .pass (← spanFrom start)
  | some .kwAssert =>
    advance
    let e ← Expr.parse
    return .assert (← spanFrom start) e
  | _ =>
    let e ← Expr.parse
    if ← accept .equals then
      let value ← Expr.parse
      return .assign (← spanFrom start) e value
    return .expr (← spanFrom start) e

/-- Reads a simple statement and its line break. -/
def simpleLine : Parser Stmt := do
  let s ← simple
  expect .newline
  return s

/-- Reads what a condition governs: the condition, a colon and a block. -/
def governed (block : Parser (List Stmt)) : Parser (Expr × List Stmt) := do
  let cond ← Expr.parse
  expect .colon
  let body ← block
  return (cond, body)

/-- Reads the other branch of a conditional, with at most `n` further conditions; it is empty if
there is none. -/
def otherwise (block : Parser (List Stmt)) : (n : Nat) → Parser (List Stmt)
  | 0 => return []
  | n + 1 => do
    let start ← here
    match ← peek with
    | some .kwElif =>
      advance
      let (cond, body) ← governed block
      let orelse ← otherwise block n
      return [.branch (← spanFrom start) cond body orelse]
    | some .kwElse =>
      advance
      expect .colon
      block
    | _ => return []

/-- Reads a statement, given a parser for the blocks inside it. -/
def statement (block : Parser (List Stmt)) : Parser Stmt := do
  let start ← here
  match ← peek with
  | some .kwIf =>
    advance
    let (cond, body) ← governed block
    let orelse ← otherwise block (← remaining)
    return .branch (← spanFrom start) cond body orelse
  | some .kwWhile =>
    advance
    let (cond, body) ← governed block
    return .loop (← spanFrom start) cond body
  | _ => simpleLine

/-- Reads a statement unless the block ends. -/
def statement? (block : Parser (List Stmt)) : Parser (Option Stmt) := do
  if (← peek) = some .dedent then return none else some <$> statement block

/-- Reads a block in which blocks are nested less than `depth` deep: a simple statement on the same
line, or indented statements on the next lines. -/
def blockWithin : (depth : Nat) → Parser (List Stmt)
  | 0 => unexpected
  | depth + 1 => do
    if ← accept .newline then
      expect .indent
      let first ← statement (blockWithin depth)
      let rest ← repeatWhile (statement? (blockWithin depth))
      expect .dedent
      return first :: rest
    return [← simpleLine]

/-- Reads a block. -/
def block : Parser (List Stmt) := do blockWithin ((← remaining) + 1)

end Stmt

/-- Reads a named argument of a decorator. -/
def Decorator.argument : Parser (Spanned String × Expr) := do
  let key ← Parser.name
  expect .equals
  let value ← Expr.parse
  return (key, value)

/-- Reads a decorator and its line break, if one is next. -/
def Decorator.parse? : Parser (Option Decorator) := do
  let start ← here
  if ← accept .at then
    let key ← Parser.name
    let arguments ← if ← accept .lParen then commaList Decorator.argument .rParen else pure []
    let span ← spanFrom start
    expect .newline
    return some ⟨key, arguments, span⟩
  return none

/-- Reads a parameter. -/
def Param.parse : Parser Param := do
  let x ← Parser.name
  let type ← if ← accept .colon then some <$> TypeExpr.parse else pure none
  return ⟨x, type⟩

/-- Reads a function with its decorators. -/
def Function.parse : Parser Function := do
  let start ← here
  let decorators ← repeatWhile Decorator.parse?
  expect .kwDef
  let f ← Parser.name
  expect .lParen
  let params ← commaList Param.parse .rParen
  let result ← if ← accept .arrow then some <$> TypeExpr.parse else pure none
  expect .colon
  let body ← Stmt.block
  return ⟨decorators, f, params, result, body, ← spanFrom start⟩

/-- Reads an item of a program, if the text goes on. -/
def Item.parse? : Parser (Option Item) := do
  match ← peek with
  | none => return none
  | some .at | some .kwDef => return some (.function (← Function.parse))
  | some _ => return some (.stmt (← Stmt.statement Stmt.block))

/-- The items that a list of tokens stands for. -/
def itemsOfTokens (tokens : List (Spanned Token)) : Except Error (List Item) :=
  (repeatWhile Item.parse?).run tokens

/-- The items of a program text. -/
def parseItems (source : String) : Except Error (List Item) := do
  itemsOfTokens (← tokenizeLayout source.toList)

end Precond.Host
