/-!
# Paths

The parts of a file path that a run needs: the name of the file without its extension, and the path
of another file in the same directory. Parts are divided by slashes; empty parts and the part `.`
mean nothing, except in front.
-/

namespace Precond.Path

/-- Splits a text at a character; `part` is what has been read of the present part, reversed. -/
def splitFrom (c : Char) (part : List Char) : List Char → List (List Char)
  | [] => [part.reverse]
  | d :: ds => if d = c then part.reverse :: splitFrom c [] ds else splitFrom c (d :: part) ds

/-- The parts of a path. -/
def parts (path : String) : List String := (splitFrom '/' [] path.toList).map String.ofList

/-- A part that means nothing. -/
def isIdle (part : String) : Bool := part = "" || part = "."

/-- Parts without those at the end that mean nothing, but with the first one. -/
def trimParts : List String → List String
  | [] => []
  | first :: rest => first :: (rest.reverse.dropWhile isIdle).reverse

/-- The parts of the directory of a path. -/
def parentParts (path : String) : List String :=
  trimParts (trimParts (parts path)).dropLast

/-- The last part of a path that means something. -/
def fileName (path : String) : String := ((trimParts (parts path)).getLast?).getD ""

/-- The name of a file without what follows its last point; a point in front does not count. -/
def stem (path : String) : String :=
  let name := (fileName path).toList
  match name.reverse.dropWhile (· ≠ '.') with
  | '.' :: c :: before => String.ofList (c :: before).reverse
  | _ => String.ofList name

/-- The path of a file in the directory of another one. -/
def sibling (path name : String) : String :=
  "/".intercalate (parentParts path ++ [name])

end Precond.Path
