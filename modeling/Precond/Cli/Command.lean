import Precond.Cli.Arguments
import Precond.Cli.World
import Precond.Settings
import Precond.Smt.Process
import Precond.Text.Lines

/-!
# Commands

What each command does in a `World`: what it prints, the line it reports an error with, and its exit
code. Printed text stays printed if a later step fails.
-/

namespace Precond.Cli

/-- What a command comes to. -/
structure Outcome where
  /-- The exit code. -/
  exit : Nat
  /-- What was printed. -/
  output : String := ""
  /-- The line that reports an error, if there was one. -/
  errorLine : Option String := none
  deriving DecidableEq, Repr

/-- A computation that prints text and may fail. -/
abbrev Printing := ExceptT Error (StateM String)

/-- Prints a text. -/
def print (text : String) : Printing Unit := modify (· ++ text)

/-- Prints a text and a line break. -/
def printLine (text : String) : Printing Unit := print (text ++ "\n")

/-- A value or a failure, without printing. -/
def give {α : Type} (r : Except Error α) : Printing α := ExceptT.mk (pure r)

/-- The line that reports that something went wrong: the first line of the text, in one colour. -/
def errorLine (text : String) : String :=
  String.ofList (Text.firstLine (Text.plain s!"Error: {text}".toList))

/-- The line that reports an error: its category, and what it says if it has no place. -/
def headline (e : Error) : String :=
  match e.span? with
  | some _ => errorLine s!"{e.category} error"
  | none => errorLine s!"{e.category} error: {e.message}"

/-- The outcome of a computation, where a true result is a success. -/
def Outcome.of (c : Printing Bool) : Outcome :=
  match c.run "" with
  | (.ok success, output) => { exit := if success then 0 else 1, output }
  | (.error e, output) => { exit := 1, output, errorLine := some (headline e) }

/-- The outcome of a command on a file, whose text is read first. -/
def withFile (w : World) (file : String) (act : String → Printing Bool) : Outcome :=
  match w.read file with
  | .ok source => .of (act source)
  | .error reason => { exit := 1, errorLine := some (errorLine s!"cannot read {file}: {reason}") }

/-- The name of the settings file that is looked for beside a program. -/
def settingsFile : String := "veriwp.toml"

/-- The settings of a file that has to be there. -/
def loadSettings (w : World) (path : String) : Except Error Settings :=
  match w.read path with
  | .ok text => Settings.parse text (some path)
  | .error reason => .error (.config (.unreadable path reason))

/-- The settings beside a program, or the defaults if there is no settings file. -/
def discoverSettings (w : World) (file : String) : Except Error Settings :=
  let path := Path.sibling file settingsFile
  if w.isFile path then loadSettings w path else .ok {}

/-- The settings of a check: those of a file, and over them those of the command line. -/
def checkSettings (w : World) (file : String) (o : CheckOptions) : Except Error Settings := do
  let s ← match o.config with
    | some path => loadSettings w path
    | none => discoverSettings w file
  return { s with
    solver := o.solver.getD s.solver
    timeout := o.timeout.or s.timeout
    failFast := s.failFast && !o.collect }

/-- Prints what is asked for of a function. -/
def showSubject (o : CheckOptions) (s : Settings) (scope : String) (f : Host.Subject) :
    Printing Unit := do
  let p ← give (f.prepare s.accepted)
  printLine s!"# {scope}::{f.name}"
  if o.showBodies then print p.body.render
  if o.showObligations then
    p.obligations.forM fun ob => printLine s!"{ob.kind.render}: {ob.formula.render}"

/-- Prints what is asked for of the functions to be verified. -/
def showModule (o : CheckOptions) (s : Settings) (m : Host.Module) : Printing Unit := do
  let scopes := m.scopes.filter fun scope => o.scope.all (scope.name = ·)
  scopes.forM fun scope => scope.subjects.forM (showSubject o s scope.name)

/-- The run over a module with some settings and a solver. -/
def runOn {σ : Type} (s : Settings) (m : Host.Module) (backend : Smt.Backend σ) : Run σ :=
  { module := m, mode := s.mode, accepted := s.accepted, backend }

/-- The report of a run over the scope of a name, or over all. -/
def runReport {σ : Type} (run : Run σ) (only : Option String) (start : σ) : Except Error Report :=
  let verifying :=
    match only with
    | some name => run.verifyScope name
    | none => run.verifyAll
  (verifying.run start).1

/-- Checks a program with a solver that is chosen by the settings, and prints the report; it is a
success if all functions are verified. -/
def checkWith {σ : Type} (solver : Settings → Smt.Backend σ) (start : σ) (w : World) (file : String)
    (o : CheckOptions) (source : String) : Printing Bool := do
  let s ← give (checkSettings w file o)
  let m ← give (Host.Module.load source (Path.stem file))
  if o.showBodies || o.showObligations then showModule o s m
  let report ← give (runReport (runOn s m (solver s)) o.scope start)
  if o.json then printLine report.toJson.pretty else print report.render
  return report.allVerified

/-- The solver that settings name. -/
def backendOf (w : World) (s : Settings) : Smt.Backend Smt.Conversation :=
  Smt.process s.solver s.timeout (w.solver s.solver)

/-- Checks a program with the solver that the settings name. -/
def checkProgram (w : World) (file : String) (o : CheckOptions) (source : String) :
    Printing Bool :=
  checkWith (backendOf w) {} w file o source

/-- Prints the tokens of a program. -/
def showTokens (source : String) : Printing Bool := do
  let ts ← give (Grammar.tokenizeLayout source.toList)
  ts.forM fun t => printLine s!"{t.node.describe} @ {t.span.render}"
  return true

/-- Prints how an assertion is read. -/
def showAssertion (text : String) : Printing Bool := do
  let e ← give ((Grammar.Assertion.parse text).run {}).1
  printLine e.render
  return true

/-- Does what is asked for. -/
def Request.run (w : World) : Request → Outcome
  | .check file o => withFile w file (checkProgram w file o)
  | .tokens file => withFile w file showTokens
  | .assertion text => .of (showAssertion text)

/-- What is printed when the version is asked for. -/
def versionText : String := "veriwp 0.1.0\n"

/-- The outcome of a command line that asks for no command. -/
def Stop.outcome : Stop → Outcome
  | .version => { exit := 0, output := versionText }
  | .help => { exit := 0 }
  | .usage => { exit := 2 }

/-- Runs a command line. -/
def run (w : World) (args : List String) : Outcome :=
  match Request.parse args with
  | .ok request => request.run w
  | .error stop => stop.outcome

end Precond.Cli
