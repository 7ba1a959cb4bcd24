/-!
# Blank characters

`isBlank` is the Unicode property of white space. Solver output is read with it: `trim` takes the
blanks off both ends of a text, `words` cuts a text at its runs of blanks, and `collapse` writes
every run of blanks as one space.
-/

namespace Precond.Text

/-- The characters with the Unicode property White_Space. -/
def isBlank (c : Char) : Bool :=
  let n := c.toNat
  (9 ≤ n && n ≤ 13) || n == 0x20 || n == 0x85 || n == 0xa0 || n == 0x1680 ||
    (0x2000 ≤ n && n ≤ 0x200a) || n == 0x2028 || n == 0x2029 || n == 0x202f || n == 0x205f ||
    n == 0x3000

/-- The text without the blanks in front. -/
def trimLeft (cs : List Char) : List Char := cs.dropWhile isBlank

/-- The text without the characters at its end that satisfy `p`. -/
def dropWhileRight (p : Char → Bool) (cs : List Char) : List Char :=
  (cs.reverse.dropWhile p).reverse

/-- The text without the blanks at its end. -/
def trimRight (cs : List Char) : List Char := dropWhileRight isBlank cs

/-- The text without the blanks at either end. -/
def trim (cs : List Char) : List Char := trimRight (trimLeft cs)

/-- The maximal runs of characters that are not blank; `word` is the run read so far, reversed. -/
def wordsFrom (word : List Char) : List Char → List (List Char)
  | [] => if word.isEmpty then [] else [word.reverse]
  | c :: cs =>
    if isBlank c then
      if word.isEmpty then wordsFrom [] cs else word.reverse :: wordsFrom [] cs
    else wordsFrom (c :: word) cs

/-- The maximal runs of characters that are not blank. -/
def words (cs : List Char) : List (List Char) := wordsFrom [] cs

/-- The words of a text with one space between two of them. -/
def collapse (cs : List Char) : List Char := [' '].intercalate (words cs)

/-- What follows `lead` in a text that starts with it. -/
def dropLead? (lead : List Char) (cs : List Char) : Option (List Char) :=
  match lead, cs with
  | [], cs => some cs
  | _ :: _, [] => none
  | p :: ps, c :: cs => if p = c then dropLead? ps cs else none

theorem dropLead?_append (lead cs : List Char) : dropLead? lead (lead ++ cs) = some cs := by
  induction lead with
  | nil => rfl
  | cons p ps ih => simp [dropLead?, ih]

end Precond.Text
