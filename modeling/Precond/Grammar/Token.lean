import Precond.Text.Printable

/-!
# Tokens

The words and signs of which assertions and programs are made. Assertions and programs share one
set of tokens; the last three stand for the layout of a program and are not written but read off
its line breaks and indentation.
-/

namespace Precond.Grammar

/-- A word or sign of the language. -/
inductive Token where
  | kwDef | kwIf | kwElif | kwElse | kwWhile | kwReturn | kwPass | kwAssert
  | kwAnd | kwOr | kwNot | kwForall | kwExists | kwTrue | kwFalse
  | implies | iff
  | eqEq | notEq | lt | ltEq | gt | gtEq
  | plus | minus | star | slashSlash | slash | percent
  | lParen | rParen | lBracket | rBracket
  | comma | colonColon | colon | equals | arrow | at
  | int (n : Nat)
  | str (text : String)
  | ident (name : String)
  | newline | indent | dedent
  deriving DecidableEq, Repr

namespace Token

/-- The token that a word stands for: a keyword if it is one, otherwise a name. -/
def ofWord : String → Token
  | "def" => .kwDef
  | "if" => .kwIf
  | "elif" => .kwElif
  | "else" => .kwElse
  | "while" => .kwWhile
  | "return" => .kwReturn
  | "pass" => .kwPass
  | "assert" => .kwAssert
  | "and" => .kwAnd
  | "or" => .kwOr
  | "not" => .kwNot
  | "forall" => .kwForall
  | "exists" => .kwExists
  | "True" | "true" => .kwTrue
  | "False" | "false" => .kwFalse
  | word => .ident word

/-- Whether a token suspends the layout until it is closed. -/
def opensBracket : Token → Bool
  | .lParen | .lBracket => true
  | _ => false

/-- Whether a token closes a bracket. -/
def closesBracket : Token → Bool
  | .rParen | .rBracket => true
  | _ => false

/-- Whether a token stands for layout. -/
def isLayout : Token → Bool
  | .newline | .indent | .dedent => true
  | _ => false

/-- The way a token is written. -/
def render : Token → String
  | .kwDef => "def"
  | .kwIf => "if"
  | .kwElif => "elif"
  | .kwElse => "else"
  | .kwWhile => "while"
  | .kwReturn => "return"
  | .kwPass => "pass"
  | .kwAssert => "assert"
  | .kwAnd => "and"
  | .kwOr => "or"
  | .kwNot => "not"
  | .kwForall => "forall"
  | .kwExists => "exists"
  | .kwTrue => "True"
  | .kwFalse => "False"
  | .implies => "==>"
  | .iff => "<==>"
  | .eqEq => "=="
  | .notEq => "!="
  | .lt => "<"
  | .ltEq => "<="
  | .gt => ">"
  | .gtEq => ">="
  | .plus => "+"
  | .minus => "-"
  | .star => "*"
  | .slashSlash => "//"
  | .slash => "/"
  | .percent => "%"
  | .lParen => "("
  | .rParen => ")"
  | .lBracket => "["
  | .rBracket => "]"
  | .comma => ","
  | .colonColon => "::"
  | .colon => ":"
  | .equals => "="
  | .arrow => "->"
  | .at => "@"
  | .int n => toString n
  | .str text => Text.quote text
  | .ident name => name
  | .newline => "NEWLINE"
  | .indent => "INDENT"
  | .dedent => "DEDENT"

/-- The kind of a token with its contents, as token listings show it. -/
def describe : Token → String
  | .kwDef => "Def"
  | .kwIf => "If"
  | .kwElif => "Elif"
  | .kwElse => "Else"
  | .kwWhile => "While"
  | .kwReturn => "Return"
  | .kwPass => "Pass"
  | .kwAssert => "Assert"
  | .kwAnd => "And"
  | .kwOr => "Or"
  | .kwNot => "Not"
  | .kwForall => "Forall"
  | .kwExists => "Exists"
  | .kwTrue => "True"
  | .kwFalse => "False"
  | .implies => "Implies"
  | .iff => "Iff"
  | .eqEq => "EqEq"
  | .notEq => "NotEq"
  | .lt => "Lt"
  | .ltEq => "LtEq"
  | .gt => "Gt"
  | .gtEq => "GtEq"
  | .plus => "Plus"
  | .minus => "Minus"
  | .star => "Star"
  | .slashSlash => "SlashSlash"
  | .slash => "Slash"
  | .percent => "Percent"
  | .lParen => "LParen"
  | .rParen => "RParen"
  | .lBracket => "LBracket"
  | .rBracket => "RBracket"
  | .comma => "Comma"
  | .colonColon => "ColonColon"
  | .colon => "Colon"
  | .equals => "Eq"
  | .arrow => "Arrow"
  | .at => "At"
  | .int n => s!"Int({n})"
  | .str text => s!"Str({Text.quote text})"
  | .ident name => s!"Ident({Text.quote name})"
  | .newline => "Newline"
  | .indent => "Indent"
  | .dedent => "Dedent"

end Token

end Precond.Grammar
