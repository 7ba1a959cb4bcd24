import Precond.Error

/-!
# Reading tokens

A `Parser` reads tokens from a `Cursor`, which holds the tokens still to come and the offset at
which the last one ended. It decides by the next token alone, so it never goes back, and a text
that does not fit is reported at the first token with which no text that fits goes on.

Repetition is bounded by the number of tokens left: `repeatWhile` reads one at least each time
round, so the bound is never what ends it.
-/

namespace Precond.Grammar

/-- A place between two tokens. -/
structure Cursor where
  /-- The tokens still to come. -/
  rest : List (Spanned Token)
  /-- Where the last token read ended. -/
  last : Nat := 0
  deriving DecidableEq, Repr

/-- Reads tokens from a cursor and gives a value or an error. -/
abbrev Parser := StateT Cursor (Except Error)

namespace Parser

variable {α : Type}

/-- The next token, which is not read. -/
def peek : Parser (Option Token) := fun c => .ok (c.rest.head?.map (·.node), c)

/-- The number of tokens still to come. -/
def remaining : Parser Nat := fun c => .ok (c.rest.length, c)

/-- Fails at the next token. -/
def unexpected : Parser α := fun c =>
  match c.rest with
  | [] => .error (.parse (.unexpectedEnd c.last) (some (.point c.last)))
  | t :: _ => .error (.parse (.unexpectedToken t.node t.span) (some t.span))

/-- Reads the next token, whatever it is. -/
def advance : Parser Unit := fun c =>
  match c.rest with
  | [] => unexpected c
  | t :: rest => .ok ((), ⟨rest, t.span.stop⟩)

/-- Reads the next token if it is the given one. -/
def accept (token : Token) : Parser Bool := do
  if (← peek) = some token then
    advance
    return true
  else return false

/-- Reads the next token, which has to be the given one. -/
def expect (token : Token) : Parser Unit := do
  if ← accept token then return () else unexpected

/-- Where the next token begins. -/
def here : Parser Nat := fun c => .ok (c.rest.head?.elim c.last (·.span.start), c)

/-- Where the last token read ended. -/
def reached : Parser Nat := fun c => .ok (c.last, c)

/-- The range from an offset to the last token read. -/
def spanFrom (start : Nat) : Parser Span := do return ⟨start, ← reached⟩

/-- Reads a name. -/
def name : Parser (Spanned String) := fun c =>
  match c.rest with
  | ⟨.ident x, span⟩ :: rest => .ok (⟨x, span⟩, ⟨rest, span.stop⟩)
  | _ => unexpected c

/-- Reads values as long as `item?` finds one, at most `n` of them. -/
def repeatAtMost (item? : Parser (Option α)) : Nat → Parser (List α)
  | 0 => return []
  | n + 1 => do
    match ← item? with
    | none => return []
    | some x => return x :: (← repeatAtMost item? n)

/-- Reads values as long as `item?` finds one. -/
def repeatWhile (item? : Parser (Option α)) : Parser (List α) := do
  repeatAtMost item? (← remaining)

/-- Reads values with commas between them up to a closing token, at most `n` of them. -/
def commaItems (item : Parser α) (close : Token) : Nat → Parser (List α)
  | 0 => unexpected
  | n + 1 => do
    if (← peek) = some close then return []
    let x ← item
    if ← accept .comma then return x :: (← commaItems item close n)
    return [x]

/-- Reads values with commas between them, and one after the last if the text has it, up to and
with a closing token. -/
def commaList (item : Parser α) (close : Token) : Parser (List α) := do
  let xs ← commaItems item close (← remaining)
  expect close
  return xs

/-- Reads the next token if it is an operator of a level, and then an operand. The end of the
operand comes with them. -/
def operation? (op? : Token → Option Op) (operand : Parser α) :
    Parser (Option (Op × α × Nat)) := do
  match (← peek).bind op? with
  | none => return none
  | some op =>
    advance
    let x ← operand
    return some (op, x, ← reached)

/-- The value that a parser finds in a list of tokens, all of which it has to read. -/
def run (p : Parser α) (tokens : List (Spanned Token)) : Except Error α := do
  let (x, c) ← p { rest := tokens }
  if c.rest.isEmpty then return x
  let (x, _) ← unexpected c
  return x

end Parser

/-- The comparison that a token stands for. -/
def comparison? : Token → Option Op
  | .eqEq => some .eq
  | .notEq => some .ne
  | .lt => some .lt
  | .ltEq => some .le
  | .gt => some .gt
  | .gtEq => some .ge
  | _ => none

/-- The addition or subtraction that a token stands for. -/
def additive? : Token → Option Op
  | .plus => some .add
  | .minus => some .sub
  | _ => none

end Precond.Grammar
