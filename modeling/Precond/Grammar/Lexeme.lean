import Precond.Error

/-!
# Lexemes

`lexeme` says what a text begins with: a token, a gap that means nothing, or characters that start
no token. The longest token wins. `tokenize` cuts a whole text into its tokens with their places.

Two rules are worth naming. A `<=` in front of another `=` that is not the middle of `<==>` reads
as `<`, and the second `=` starts the next token. A quoted text that is not closed is reported with
everything that could still belong to it, up to the end of its line; a backslash belongs to it only
together with the character after it.
-/

namespace Precond.Grammar

/-- What a text begins with. -/
inductive Lexeme where
  | token (token : Token)
  /-- White space or a comment. -/
  | gap
  /-- Characters that start no token. -/
  | bad
  deriving DecidableEq, Repr

/-- Whether a character separates tokens. -/
def isGap (c : Char) : Bool :=
  c = ' ' || c = '\t' || c = '\r' || c = '\n' || c = '\x0c'

/-- Whether a character starts a word. -/
def isWordStart (c : Char) : Bool := c.isAlpha || c = '_'

/-- Whether a character continues a word. -/
def isWordPart (c : Char) : Bool := c.isAlphanum || c = '_'

/-- The number that decimal digits stand for. -/
def decimal (digits : List Char) : Nat :=
  digits.foldl (fun n c => 10 * n + (c.toNat - '0'.toNat)) 0

/-- The greatest number that may be written. -/
def maxNumber : Nat := 9223372036854775807

/-- The character that a backslash and `c` stand for. -/
def unescape (c : Char) : Char :=
  match c with
  | 'n' => '\n'
  | 't' => '\t'
  | c => c

/-- A quoted text from behind its opening quote: the text it stands for, the number of characters
read, and whether the closing quote was found. -/
def readQuoted (quote : Char) : List Char → List Char × Nat × Bool
  | [] => ([], 0, false)
  | c :: cs =>
    if c = quote then ([], 1, true)
    else if c = '\n' then ([], 0, false)
    else if c = '\\' then
      match cs with
      | [] => ([], 0, false)
      | d :: ds =>
        if d = '\n' then ([], 0, false)
        else
          let (text, n, closed) := readQuoted quote ds
          (unescape d :: text, n + 2, closed)
    else
      let (text, n, closed) := readQuoted quote cs
      (c :: text, n + 1, closed)

/-- The sign that a text begins with, and the number of its characters after the first one. -/
def sign (c : Char) (rest : List Char) : Lexeme × Nat :=
  match c, rest with
  | '=', '=' :: '>' :: _ => (.token .implies, 2)
  | '=', '=' :: _ => (.token .eqEq, 1)
  | '=', _ => (.token .equals, 0)
  | '<', '=' :: '=' :: '>' :: _ => (.token .iff, 3)
  | '<', '=' :: '=' :: _ => (.token .lt, 1)
  | '<', '=' :: _ => (.token .ltEq, 1)
  | '<', _ => (.token .lt, 0)
  | '>', '=' :: _ => (.token .gtEq, 1)
  | '>', _ => (.token .gt, 0)
  | '!', '=' :: _ => (.token .notEq, 1)
  | '+', _ => (.token .plus, 0)
  | '-', '>' :: _ => (.token .arrow, 1)
  | '-', _ => (.token .minus, 0)
  | '*', _ => (.token .star, 0)
  | '/', '/' :: _ => (.token .slashSlash, 1)
  | '/', _ => (.token .slash, 0)
  | '%', _ => (.token .percent, 0)
  | '(', _ => (.token .lParen, 0)
  | ')', _ => (.token .rParen, 0)
  | '[', _ => (.token .lBracket, 0)
  | ']', _ => (.token .rBracket, 0)
  | ',', _ => (.token .comma, 0)
  | ':', ':' :: _ => (.token .colonColon, 1)
  | ':', _ => (.token .colon, 0)
  | '@', _ => (.token .at, 0)
  | _, _ => (.bad, 0)

/-- What a text begins with, and the number of its characters after the first one. -/
def lexeme (c : Char) (rest : List Char) : Lexeme × Nat :=
  if isGap c then (.gap, 0)
  else if c = '#' then (.gap, (rest.takeWhile (· ≠ '\n')).length)
  else if isWordStart c then
    let tail := rest.takeWhile isWordPart
    (.token (.ofWord (String.ofList (c :: tail))), tail.length)
  else if c.isDigit then
    let tail := rest.takeWhile Char.isDigit
    let n := decimal (c :: tail)
    (if n ≤ maxNumber then .token (.int n) else .bad, tail.length)
  else if c = '"' || c = '\'' then
    let (text, n, closed) := readQuoted c rest
    (if closed then .token (.str (String.ofList text)) else .bad, n)
  else sign c rest

/-- The tokens of a text that begins at offset `pos`; the first `skip` characters belong to a lexeme
that has been read. -/
def scan : (skip pos : Nat) → List Char → Except Error (List (Spanned Token))
  | _, _, [] => .ok []
  | skip + 1, pos, c :: cs => scan skip (pos + c.utf8Size) cs
  | 0, pos, c :: cs =>
    let (found, n) := lexeme c cs
    let text := c :: cs.take n
    let span : Span := ⟨pos, pos + byteLength text⟩
    match found with
    | .gap => scan n (pos + c.utf8Size) cs
    | .bad => .error (.lex (.unexpectedText (String.ofList text)) span)
    | .token token => do
      let rest ← scan n (pos + c.utf8Size) cs
      return ⟨token, span⟩ :: rest

/-- The tokens of a text, without layout. -/
def tokenize (text : List Char) : Except Error (List (Spanned Token)) := scan 0 0 text

end Precond.Grammar
