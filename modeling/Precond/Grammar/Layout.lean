import Precond.Grammar.Lexeme
import Precond.Text.Blank
import Precond.Text.Lines

/-!
# Layout

In a program, line breaks and indentation carry meaning. `tokenizeLayout` reads a text line by line
and adds to its tokens one for the end of each line of code, one where a line is indented deeper
than the one before, and one for each level that a line, or the end of the text, falls back.
A line with no tokens counts for nothing. Between brackets line breaks and indentation mean
nothing.

A tab moves the column to the next multiple of eight.
-/

namespace Precond.Grammar

/-- A line of a text. -/
structure Line where
  /-- The offset of its first byte. -/
  start : Nat
  /-- Its characters without the line break. -/
  content : List Char
  deriving Repr

/-- Places the lines of a text one after another from offset `pos` on. A line break is a newline
with any carriage returns before it. -/
def placeLines (pos : Nat) : List (List Char) → List Line
  | [] => []
  | raw :: rest =>
    ⟨pos, Text.dropWhileRight (fun c => c = '\n' || c = '\r') raw⟩ ::
      placeLines (pos + byteLength raw) rest

/-- The lines of a text. -/
def lines (text : List Char) : List Line := placeLines 0 (Text.splitLines text)

/-- The column after one more character. -/
def nextColumn (column : Nat) (c : Char) : Nat :=
  if c = '\t' then (column / 8 + 1) * 8 else column + 1

/-- The column that a run of blanks reaches. -/
def indentWidth (blanks : List Char) : Nat := blanks.foldl nextColumn 0

/-- The columns of the open blocks, the innermost first, and the number of open brackets. -/
structure LayoutState where
  /-- The columns of the open blocks inside the outermost one, the innermost first. -/
  levels : List Nat := []
  /-- The number of open brackets. -/
  depth : Nat := 0
  deriving DecidableEq, Repr

/-- The number of open brackets after a token. -/
def nextDepth (depth : Nat) (token : Token) : Nat :=
  if token.opensBracket then depth + 1
  else if token.closesBracket then depth - 1
  else depth

/-- The block columns after falling back to column `width`, and the number of blocks closed. -/
def fallBack (width : Nat) : List Nat → List Nat × Nat
  | [] => ([], 0)
  | level :: levels =>
    if width < level then
      let (kept, closed) := fallBack width levels
      (kept, closed + 1)
    else (level :: levels, 0)

/-- The layout tokens in front of a line with the given leading blanks, and the block columns after
them. -/
def openLine (line : Line) (levels : List Nat) :
    Except Error (List (Spanned Token) × List Nat) :=
  let blanks := line.content.takeWhile Text.isBlank
  let width := indentWidth blanks
  let place : Span := ⟨line.start, line.start + byteLength blanks⟩
  if levels.headD 0 < width then .ok ([⟨.indent, place⟩], width :: levels)
  else
    let (kept, closed) := fallBack width levels
    if kept.headD 0 = width then
      .ok (List.replicate closed ⟨.dedent, .point place.stop⟩, kept)
    else .error (.lex .unmatchedUnindent place)

/-- The tokens of one line with its layout. -/
def layoutLine (state : LayoutState) (line : Line) :
    Except Error (List (Spanned Token) × LayoutState) := do
  let tokens ← scan 0 line.start line.content
  if tokens.isEmpty then return ([], state)
  let (before, levels) ←
    if state.depth = 0 then openLine line state.levels else .ok ([], state.levels)
  let depth := tokens.foldl (fun depth t => nextDepth depth t.node) state.depth
  let after : List (Spanned Token) :=
    if depth = 0 then [⟨.newline, .point (line.start + byteLength line.content)⟩] else []
  return (before ++ tokens ++ after, ⟨levels, depth⟩)

/-- The tokens of the lines from a state on, where the text ends at offset `stop`. -/
def layoutLines (stop : Nat) (state : LayoutState) : List Line → Except Error (List (Spanned Token))
  | [] =>
    if 0 < state.depth then .error (.lex .openBracketAtEnd (.point stop))
    else .ok (List.replicate state.levels.length ⟨.dedent, .point stop⟩)
  | line :: rest => do
    let (tokens, state) ← layoutLine state line
    let more ← layoutLines stop state rest
    return tokens ++ more

/-- The tokens of a program text, with layout. -/
def tokenizeLayout (text : List Char) : Except Error (List (Spanned Token)) :=
  layoutLines (byteLength text) {} (lines text)

end Precond.Grammar
