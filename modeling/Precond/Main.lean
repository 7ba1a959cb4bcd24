import Precond.Cli.Command

/-!
# The program

Reads the files that a command line may need, runs it, and prints what it comes to. The path of a
solver names a file with the lines that the solver writes.
-/

namespace Precond.Cli

/-- The words for a reason that the system gives by its number, which may come negated. -/
def reasonOfCode (code : UInt32) (details : String) : String :=
  match if code < 0x80000000 then code else 0 - code with
  | 2 => Files.missing
  | 13 => Files.notExecutable
  | 20 => Files.notDirectory
  | 21 => Files.isDirectory
  | 36 => Files.nameTooLong
  | n => s!"{details} (os error {n})"

/-- Why something cannot be read. -/
def reasonOf : IO.Error → String
  | .noFileOrDirectory _ code details
  | .invalidArgument _ code details
  | .permissionDenied _ code details
  | .resourceExhausted _ code details
  | .inappropriateType _ code details
  | .noSuchThing _ code details
  | .otherError code details => reasonOfCode code details
  | .userError _ => "stream did not contain valid UTF-8"
  | e => toString e

/-- The text of a file, or why it cannot be read. -/
def readText (path : String) : IO (Except String String) := do
  try
    return .ok (← IO.FS.readFile path)
  catch e =>
    return .error (reasonOf e)

/-- The reasons that a path does not lead to a file. -/
def noFile : List String :=
  [Files.missing, Files.notDirectory, Files.isDirectory, Files.nameTooLong]

/-- Whether there is a file, by what came of reading it. -/
def isFileBy : Except String String → Bool
  | .ok _ => true
  | .error reason => !noFile.contains reason

/-- The world in which some paths have been looked at. -/
def worldOf (found : List (String × Except String String)) : World :=
  let look := fun path => ((found.find? (·.1 = path)).map (·.2)).getD (.error Files.missing)
  { read := look, isFile := fun path => isFileBy (look path), solver := look }

/-- The paths that a command reads. -/
def wanted : Request → List String
  | .check file o => [file, o.config.getD (Path.sibling file settingsFile)]
  | .tokens file => [file]
  | .assertion _ => []

/-- Looks at paths. -/
def lookAt (paths : List String) : IO (List (String × Except String String)) :=
  paths.mapM fun path => do return (path, ← readText path)

/-- The paths of the solvers that a command starts. -/
def wantedSolvers (w : World) : Request → List String
  | .check file o => (checkSettings w file o).toOption.toList.map (·.solver)
  | _ => []

end Precond.Cli

open Precond Precond.Cli

/-- Runs the command line. -/
def main (args : List String) : IO UInt32 := do
  let outcome ←
    match Request.parse args with
    | .error stop => pure stop.outcome
    | .ok request => do
      let files ← lookAt (wanted request)
      let solvers ← lookAt (wantedSolvers (worldOf files) request)
      pure (request.run (worldOf (files ++ solvers)))
  IO.print outcome.output
  if let some line := outcome.errorLine then IO.eprintln line
  return UInt32.ofNat outcome.exit
