/-!
# JSON text

Reports are written as JSON laid out over several lines: two spaces of indentation for each level,
one member or element to a line, and an empty array or object on one line. `Json.pretty` is that
layout and `Json.quote` the form of a string in it.
-/

namespace Precond.Text

/-- A JSON value with numbers restricted to counts. -/
inductive Json where
  | count (n : Nat)
  | text (s : String)
  | array (items : List Json)
  | object (members : List (String × Json))

namespace Json

/-- A hexadecimal number of four digits. -/
def hex4 (n : Nat) : List Char :=
  let digits := Nat.toDigits 16 n
  List.replicate (4 - digits.length) '0' ++ digits

/-- One character as it is written inside a JSON string. -/
def escape (c : Char) : List Char :=
  match c with
  | '"' => ['\\', '"']
  | '\\' => ['\\', '\\']
  | '\n' => ['\\', 'n']
  | '\r' => ['\\', 'r']
  | '\t' => ['\\', 't']
  | '\x08' => ['\\', 'b']
  | '\x0c' => ['\\', 'f']
  | c => if c.toNat < 0x20 then ['\\', 'u'] ++ hex4 c.toNat else [c]

/-- A string between double quotes with its characters escaped. -/
def quote (s : String) : String :=
  String.ofList (['"'] ++ s.toList.flatMap escape ++ ['"'])

/-- A line break and the indentation of a level. -/
def newline (level : Nat) : String := "\n" ++ String.ofList (List.replicate (2 * level) ' ')

mutual

/-- The text of a value whose first line stands at indentation `level`. -/
def prettyAt (level : Nat) : Json → String
  | .count n => toString n
  | .text s => quote s
  | .array [] => "[]"
  | .array (item :: items) =>
    "[" ++ ",".intercalate (itemsAt (level + 1) (item :: items)) ++ newline level ++ "]"
  | .object [] => "\x7b\x7d"
  | .object (member :: members) =>
    "\x7b" ++ ",".intercalate (membersAt (level + 1) (member :: members)) ++ newline level ++
      "\x7d"

/-- The lines of the elements of an array. -/
def itemsAt (level : Nat) : List Json → List String
  | [] => []
  | item :: items => (newline level ++ prettyAt level item) :: itemsAt level items

/-- The lines of the members of an object. -/
def membersAt (level : Nat) : List (String × Json) → List String
  | [] => []
  | (key, value) :: members =>
    (newline level ++ quote key ++ ": " ++ prettyAt level value) :: membersAt level members

end

/-- The text of a value laid out over several lines. -/
def pretty (value : Json) : String := prettyAt 0 value

end Json

end Precond.Text
