/-!
# Lines and colour sequences

`splitLines` cuts a text after each of its line breaks. Every line but perhaps the last one keeps
its line break, so the lines together are the text. `firstLine` is the first line alone, without
its line break.

A terminal takes the escape character, an opening bracket, numbers divided by semicolons and the
letter `m` for a change of colour. `plain` is a text without such sequences.
-/

namespace Precond.Text

/-- The lines of a text; `line` is what has been read of the present one, reversed. -/
def linesFrom (line : List Char) : List Char → List (List Char)
  | [] => if line.isEmpty then [] else [line.reverse]
  | c :: cs => if c = '\n' then (c :: line).reverse :: linesFrom [] cs else linesFrom (c :: line) cs

/-- The lines of a text, each with its line break. -/
def splitLines (text : List Char) : List (List Char) := linesFrom [] text

theorem flatten_linesFrom (line cs : List Char) :
    (linesFrom line cs).flatten = line.reverse ++ cs := by
  induction cs generalizing line with
  | nil => cases line <;> simp [linesFrom]
  | cons c cs ih =>
    by_cases h : c = '\n'
    · simp [linesFrom, h, ih]
    · simp [linesFrom, h, ih]

/-- The lines of a text together are the text. -/
theorem flatten_splitLines (text : List Char) : (splitLines text).flatten = text := by
  simp [splitLines, flatten_linesFrom]

/-- The first line of a text. A carriage return in front of the line break belongs to it. -/
def firstLine (text : List Char) : List Char :=
  let line := text.takeWhile (· ≠ '\n')
  if line.getLast? = some '\r' then line.dropLast else line

/-! ## Colour sequences -/

/-- The escape character. -/
def escapeChar : Char := '\x1b'

/-- Whether a character continues what may be a colour sequence, of which `held` has been read, the
last character first. -/
def continuesColour (held : List Char) (c : Char) : Bool :=
  match held with
  | [] => c == escapeChar
  | [_] => c == '['
  | _ => c.isDigit || c == ';'

/-- A text without colour sequences; `held` is what has been read of one, reversed. -/
def plainFrom (held : List Char) : List Char → List Char
  | [] => held.reverse
  | c :: cs =>
    if continuesColour held c then plainFrom (c :: held) cs
    else if 2 ≤ held.length && c == 'm' then plainFrom [] cs
    else if c == escapeChar then held.reverse ++ plainFrom [c] cs
    else held.reverse ++ c :: plainFrom [] cs

/-- A text without its colour sequences. -/
def plain (text : List Char) : List Char := plainFrom [] text

end Precond.Text
