/-!
# Names that look alike

A message about an unknown name may suggest a known one. Two names are compared by edit distance,
the least number of insertions, deletions and replacements of single characters that turns one into
the other. `distance` computes it row by row: the row after the characters read so far lists their
distances to all the initial parts of the target. `similar?` takes the nearest candidate within a
threshold, the earliest one on a tie, and `hint` words the suggestion.
-/

namespace Precond.Name

/-- The rest of the row after reading `c`, right of an entry `left`, from the target characters and
the entries of the row above that are still to come. -/
def rowFrom (c : Char) (left : Nat) : List Char → List Nat → List Nat
  | t :: ts, diagonal :: above :: rest =>
    let entry := min (min (above + 1) (left + 1)) (diagonal + if c = t then 0 else 1)
    entry :: rowFrom c entry ts (above :: rest)
  | _, _ => []

/-- The row after reading `c`, from the row above. -/
def nextRow (target : List Char) (row : List Nat) (c : Char) : List Nat :=
  let first := row.headD 0 + 1
  first :: rowFrom c first target row

/-- The edit distance of two texts. -/
def distance (a b : String) : Nat :=
  let row := a.toList.foldl (nextRow b.toList) (List.range (b.length + 1))
  row.getLastD 0

/-- The first candidate of least distance among those given with their distances. -/
def nearest? : List (Nat × String) → Option (Nat × String)
  | [] => none
  | (d, candidate) :: rest =>
    match nearest? rest with
    | some (d', other) => if d' < d then some (d', other) else some (d, candidate)
    | none => some (d, candidate)

/-- The first candidate of least distance from `name`, if that distance is within the threshold. -/
def similar? (name : String) (candidates : List String) (threshold : Nat) : Option String :=
  let measured := candidates.map fun c => (distance name c, c)
  (nearest? (measured.filter (·.1 ≤ threshold))).map (·.2)

/-- The largest distance at which a name is still suggested. -/
def hintThreshold : Nat := 2

/-- The suggestion for an unknown name. -/
def suggestion? (name : String) (candidates : List String) : Option String :=
  similar? name candidates hintThreshold

/-- A suggestion as it is added to a message; nothing where there is none. -/
def hint : Option String → String
  | some name => s!"\n  hint: did you mean `{name}`?"
  | none => ""

end Precond.Name
