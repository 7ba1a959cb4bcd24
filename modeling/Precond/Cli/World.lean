import Precond.Cli.Path

/-!
# What a command line meets

A command reads files and starts a solver. A `World` says what it finds: where there are files, the
text of a file or the reason why it cannot be read, and likewise what a solver writes.
`World.ofFiles` is the world in which there is one directory, with files that are given, and solvers
that are given. A path is followed part by part, and the first part that leads nowhere is the reason
why it cannot be read.
-/

namespace Precond

/-- What a command finds. -/
structure World where
  /-- The text of a file, or why it cannot be read. -/
  read : String → Except String String
  /-- Whether there is a file at a path, be it one that cannot be read. -/
  isFile : String → Bool
  /-- What the solver at a path writes, or why it cannot be started. -/
  solver : String → Except String String

/-- The files of a directory, each with the parts of its path and its text. -/
abbrev Files := List (List String × String)

/-- Where a path has led so far. -/
inductive Place where
  /-- At the directory or below it, with the parts of the way there. -/
  | inside (parts : List String)
  /-- In a directory elsewhere, with nothing in it that a path could name. -/
  | outside
  deriving DecidableEq, Repr

namespace Files

/-- The reason that there is nothing at a path. -/
def missing : String := "No such file or directory (os error 2)"

/-- The reason that a part of a path is no directory. -/
def notDirectory : String := "Not a directory (os error 20)"

/-- The reason that a directory cannot be read. -/
def isDirectory : String := "Is a directory (os error 21)"

/-- The reason that something cannot be started. -/
def notExecutable : String := "Permission denied (os error 13)"

/-- The reason that a path, or a part of it, names nothing at all. -/
def nameTooLong : String := "File name too long (os error 36)"

/-- The reason that a path with the character zero in it cannot be started. -/
def zeroByte : String := "nul byte found in provided data"

/-- The greatest number of bytes in a part of a path. -/
def maxPart : Nat := 255

/-- The greatest number of bytes in a path. -/
def maxPath : Nat := 4095

/-- What is at a place: the text of a file, or nothing for a directory. -/
def find (files : Files) : Place → Except String (Option String)
  | .outside => .ok none
  | .inside parts =>
    match files.find? (·.1 = parts) with
    | some (_, text) => .ok (some text)
    | none =>
      if parts.isEmpty || files.any (parts.isPrefixOf ·.1) then .ok none else .error missing

/-- The place above a directory. -/
def up : Place → Place
  | .inside [] | .outside => .outside
  | .inside parts => .inside parts.dropLast

/-- The place that a name stands for in a directory. -/
def down (name : String) (place : Place) : Except String Place :=
  if maxPart < name.utf8ByteSize then .error nameTooLong
  else
    match place with
    | .inside parts => .ok (.inside (parts ++ [name]))
    | .outside => .error missing

/-- The place that the parts of a path lead to from a directory. -/
def walk (files : Files) (place : Place) : List String → Except String Place
  | [] => .ok place
  | part :: parts => do
    if (← files.find place).isSome then throw notDirectory
    if Path.isIdle part then walk files place parts
    else if part = ".." then walk files (up place) parts
    else walk files (← down part place) parts

/-- What a path leads to: one that starts with a slash starts elsewhere. -/
def lookup (files : Files) (path : String) : Except String (Option String) := do
  if path.isEmpty then throw missing
  if maxPath < path.utf8ByteSize then throw nameTooLong
  let start : Place := if path.toList.head? = some '/' then .outside else .inside []
  files.find (← files.walk start (Path.parts path))

/-- The text of the file at a path. -/
def read (files : Files) (path : String) : Except String String := do
  match ← files.lookup path with
  | some text => return text
  | none => throw isDirectory

/-- Whether there is a file at a path. -/
def isFile (files : Files) (path : String) : Bool :=
  match files.lookup path with
  | .ok (some _) => true
  | _ => false

/-- Why a path that is no solver cannot be started: a name alone is looked for elsewhere. -/
def refusal (files : Files) (path : String) : String :=
  if path.toList.contains '\x00' then zeroByte
  else if path.toList.contains '/' then
    match files.lookup path with
    | .ok _ => notExecutable
    | .error reason => reason
  else if maxPart < path.utf8ByteSize then nameTooLong
  else missing

end Files

/-- The world of a directory with files, given by their paths, and of solvers, given by their paths
and what they write. -/
def World.ofFiles (files solvers : List (String × String)) : World :=
  let files : Files := files.map fun (path, text) =>
    ((Path.parts path).filter (!Path.isIdle ·), text)
  { read := files.read
    isFile := files.isFile
    solver := fun path =>
      match solvers.find? (·.1 = path) with
      | some (_, text) => .ok text
      | none => .error (files.refusal path) }

end Precond
