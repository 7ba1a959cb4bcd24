/-!
# Settings files

A settings file is written in TOML. `Toml.entries?` reads the part of it that settings can be
written in: keys that are words or quoted, and values that are texts, whole numbers, truth values,
or lists of texts. Nothing else can be the value of a setting, so nothing else is read.

A reader takes characters and gives what it read and what follows, or nothing if the characters do
not fit.
-/

namespace Precond.Toml

/-- The value of a setting. -/
inductive Value where
  | text (s : String)
  | int (n : Int)
  | bool (b : Bool)
  | texts (items : List String)
  deriving DecidableEq, Repr

/-- Reads a value from the front of a text. -/
abbrev Reader (α : Type) := List Char → Option (α × List Char)

/-! ## Blanks and line ends -/

/-- Whether a character is a blank within a line. -/
def isSpace (c : Char) : Bool := c = ' ' || c = '\t'

/-- The text without the blanks in front. -/
def spaces (cs : List Char) : List Char := cs.dropWhile isSpace

/-- Whether a character may stand in a line of text: a tab, or no control character. -/
def isPlain (c : Char) : Bool := c = '\t' || (0x20 ≤ c.toNat && c.toNat ≠ 0x7f)

/-- What follows a line break. -/
def newline? : List Char → Option (List Char)
  | '\n' :: cs => some cs
  | '\r' :: '\n' :: cs => some cs
  | _ => none

/-- What follows a comment, if there is one. -/
def comment : List Char → List Char
  | '#' :: cs => cs.dropWhile isPlain
  | cs => cs

/-- What follows the rest of a line on which nothing more is set. -/
def lineEnd? (cs : List Char) : Option (List Char) :=
  match comment (spaces cs) with
  | [] => some []
  | cs => newline? cs

/-- What follows blanks, comments and line breaks, up to `n` of them. -/
def gap : (n : Nat) → List Char → List Char
  | 0, cs => cs
  | n + 1, cs =>
    match newline? (comment (spaces cs)) with
    | some rest => gap n rest
    | none => comment (spaces cs)

/-! ## Quoted texts -/

/-- The value of a hexadecimal digit. -/
def hexDigit? (c : Char) : Option Nat :=
  if c.isDigit then some (c.toNat - '0'.toNat)
  else if 'a' ≤ c && c ≤ 'f' then some (c.toNat - 'a'.toNat + 10)
  else if 'A' ≤ c && c ≤ 'F' then some (c.toNat - 'A'.toNat + 10)
  else none

/-- The number that digits to a base stand for, where `digit?` is the value of a digit. -/
def number? (digit? : Char → Option Nat) (base : Nat) (cs : List Char) : Option Nat :=
  cs.foldlM (fun n c => (digit? c).map (base * n + ·)) 0

/-- The character of a code point, which may not be a surrogate. -/
def character? (n : Nat) : Option Char :=
  if n < 0xd800 || (0xdfff < n && n < 0x110000) then some (Char.ofNat n) else none

/-- The character that hexadecimal digits stand for. -/
def hexCharacter? (digits : List Char) : Option Char :=
  (number? hexDigit? 16 digits).bind character?

/-- The character that a backslash and `c` stand for. -/
def escape? (c : Char) : Option Char :=
  match c with
  | 'b' => some '\x08'
  | 't' => some '\t'
  | 'n' => some '\n'
  | 'f' => some '\x0c'
  | 'r' => some '\r'
  | '"' => some '"'
  | '\\' => some '\\'
  | _ => none

/-- A character put in front of what is read. -/
def consText (c : Char) (r : Option (List Char × List Char)) : Option (List Char × List Char) :=
  r.map fun (text, rest) => (c :: text, rest)

/-- Reads a text with escapes up to its closing quote. -/
def basic : Reader (List Char)
  | [] => none
  | '"' :: cs => some ([], cs)
  | '\\' :: 'u' :: a :: b :: c :: d :: cs =>
    match hexCharacter? [a, b, c, d] with
    | some x => consText x (basic cs)
    | none => none
  | '\\' :: 'U' :: a :: b :: c :: d :: e :: f :: g :: h :: cs =>
    match hexCharacter? [a, b, c, d, e, f, g, h] with
    | some x => consText x (basic cs)
    | none => none
  | '\\' :: c :: cs =>
    match escape? c with
    | some x => consText x (basic cs)
    | none => none
  | c :: cs => if isPlain c && c ≠ '\\' then consText c (basic cs) else none

/-- Reads a text without escapes up to its closing quote. -/
def literal : Reader (List Char)
  | [] => none
  | c :: cs =>
    if c = '\'' then some ([], cs)
    else if isPlain c then consText c (literal cs)
    else none

/-- Whether a text goes on with a line break after some blanks. -/
def breaksLine (cs : List Char) : Bool := (newline? (spaces cs)).isSome

/-- Reads a text of several lines with escapes up to its closing quotes. While `skipping`, blanks
and line breaks after an escaped line break are left out. -/
def multiBasic (skipping : Bool) : Reader (List Char)
  | [] => none
  | '"' :: '"' :: '"' :: '"' :: '"' :: cs => some (['"', '"'], cs)
  | '"' :: '"' :: '"' :: '"' :: cs => some (['"'], cs)
  | '"' :: '"' :: '"' :: cs => some ([], cs)
  | '\r' :: '\n' :: cs =>
    if skipping then multiBasic true cs else consText '\n' (multiBasic false cs)
  | '\\' :: 'u' :: a :: b :: c :: d :: cs =>
    match hexCharacter? [a, b, c, d] with
    | some x => consText x (multiBasic false cs)
    | none => none
  | '\\' :: 'U' :: a :: b :: c :: d :: e :: f :: g :: h :: cs =>
    match hexCharacter? [a, b, c, d, e, f, g, h] with
    | some x => consText x (multiBasic false cs)
    | none => none
  | '\\' :: c :: cs =>
    match escape? c with
    | some x => consText x (multiBasic false cs)
    | none => if breaksLine (c :: cs) then multiBasic true (c :: cs) else none
  | c :: cs =>
    if c = '\n' then if skipping then multiBasic true cs else consText '\n' (multiBasic false cs)
    else if skipping && isSpace c then multiBasic true cs
    else if isPlain c && c ≠ '\\' then consText c (multiBasic false cs)
    else none

/-- Reads a text of several lines without escapes up to its closing quotes. -/
def multiLiteral : Reader (List Char)
  | [] => none
  | '\'' :: '\'' :: '\'' :: '\'' :: '\'' :: cs => some (['\'', '\''], cs)
  | '\'' :: '\'' :: '\'' :: '\'' :: cs => some (['\''], cs)
  | '\'' :: '\'' :: '\'' :: cs => some ([], cs)
  | '\r' :: '\n' :: cs => consText '\n' (multiLiteral cs)
  | c :: cs => if c = '\n' || isPlain c then consText c (multiLiteral cs) else none

/-- A text that was read. -/
def asText (r : Option (List Char × List Char)) : Option (String × List Char) :=
  r.map fun (text, rest) => (String.ofList text, rest)

/-- Reads a quoted text that fits on a line. -/
def quoted : Reader String
  | '"' :: cs => asText (basic cs)
  | '\'' :: cs => asText (literal cs)
  | _ => none

/-- The text without a line break in front. -/
def dropNewline (cs : List Char) : List Char := (newline? cs).getD cs

/-- Reads a quoted text, possibly of several lines; a line break right after its opening quotes does
not belong to it. -/
def text : Reader String
  | '"' :: '"' :: '"' :: cs => asText (multiBasic false (dropNewline cs))
  | '\'' :: '\'' :: '\'' :: cs => asText (multiLiteral (dropNewline cs))
  | cs => quoted cs

/-! ## Numbers -/

/-- Digits without the single underscores between them. -/
def joinDigits : List Char → Option (List Char)
  | [] => none
  | [c] => if c = '_' then none else some [c]
  | c :: '_' :: d :: cs => if c = '_' then none else (joinDigits (d :: cs)).map (c :: ·)
  | c :: d :: cs => if c = '_' then none else (joinDigits (d :: cs)).map (c :: ·)

/-- The value of a digit below a base. -/
def digitBelow? (base : Nat) (c : Char) : Option Nat := (hexDigit? c).filter (· < base)

/-- The number that digits to a base stand for, with underscores between them. -/
def digits? (base : Nat) (cs : List Char) : Option Nat :=
  (joinDigits cs).bind (number? (digitBelow? base) base)

/-- The number that decimal digits stand for; none begins with a needless zero. -/
def decimal? (cs : List Char) : Option Nat :=
  match cs with
  | '0' :: _ :: _ => none
  | cs => digits? 10 cs

/-- The whole number that a word stands for, with a sign or a base. -/
def int? (word : List Char) : Option Int :=
  match word with
  | '0' :: 'x' :: cs => (digits? 16 cs).map Int.ofNat
  | '0' :: 'o' :: cs => (digits? 8 cs).map Int.ofNat
  | '0' :: 'b' :: cs => (digits? 2 cs).map Int.ofNat
  | '+' :: cs => (decimal? cs).map Int.ofNat
  | '-' :: cs => (decimal? cs).map fun n => -Int.ofNat n
  | cs => (decimal? cs).map Int.ofNat

/-- Whether a number fits into 64 bits. -/
def fits (n : Int) : Bool := -9223372036854775808 ≤ n && n ≤ 9223372036854775807

/-- Whether a character may stand in a number or another word. -/
def isWordChar (c : Char) : Bool :=
  c.isAlphanum || c = '_' || c = '+' || c = '-' || c = '.' || c = ':'

/-- Reads a truth value or a number. -/
def word (cs : List Char) : Option (Value × List Char) :=
  let rest := cs.dropWhile isWordChar
  match cs.takeWhile isWordChar with
  | ['t', 'r', 'u', 'e'] => some (.bool true, rest)
  | ['f', 'a', 'l', 's', 'e'] => some (.bool false, rest)
  | w => ((int? w).filter fits).map fun n => (.int n, rest)

/-! ## Lists, keys and files -/

/-- Reads the texts of a list up to its closing bracket, at most `n` of them. -/
def texts : (n : Nat) → Reader (List String)
  | 0, _ => none
  | n + 1, cs =>
    match gap cs.length cs with
    | ']' :: rest => some ([], rest)
    | cs => do
      let (item, rest) ← text cs
      match gap rest.length rest with
      | ']' :: rest => some ([item], rest)
      | ',' :: rest =>
        let (items, rest) ← texts n rest
        return (item :: items, rest)
      | _ => none

/-- Reads the value of a setting. -/
def value (cs : List Char) : Option (Value × List Char) :=
  match cs with
  | '[' :: cs => (texts cs.length cs).map fun (items, rest) => (.texts items, rest)
  | '"' :: _ | '\'' :: _ => (text cs).map fun (s, rest) => (.text s, rest)
  | cs => word cs

/-- Whether a character may stand in a key without quotes. -/
def isKeyChar (c : Char) : Bool := c.isAlphanum || c = '_' || c = '-'

/-- Reads a key. -/
def key (cs : List Char) : Option (String × List Char) :=
  match cs with
  | '"' :: _ | '\'' :: _ => quoted cs
  | cs =>
    match cs.takeWhile isKeyChar with
    | [] => none
    | w => some (String.ofList w, cs.dropWhile isKeyChar)

/-- Reads a key and its value, to the end of the line. -/
def entry (cs : List Char) : Option ((String × Value) × List Char) := do
  let (k, rest) ← key cs
  match spaces rest with
  | '=' :: rest =>
    let (v, rest) ← value (spaces rest)
    let rest ← lineEnd? rest
    return ((k, v), rest)
  | _ => none

/-- The entries of a file, of at most `n` lines. -/
def entriesWithin : (n : Nat) → List Char → Option (List (String × Value))
  | 0, _ => none
  | n + 1, cs =>
    match spaces cs with
    | [] => some []
    | cs =>
      match lineEnd? cs with
      | some rest => entriesWithin n rest
      | none => do
        let (e, rest) ← entry cs
        let es ← entriesWithin n rest
        return e :: es

/-- The text without a byte order mark in front. -/
def dropMark : List Char → List Char
  | '\ufeff' :: cs => cs
  | cs => cs

/-- The entries of a settings file in their order. -/
def entries? (text : List Char) : Option (List (String × Value)) :=
  entriesWithin (text.length + 1) (dropMark text)

end Precond.Toml
