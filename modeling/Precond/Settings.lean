import Precond.Error
import Precond.Settings.Toml
import Precond.Verify.Run

/-!
# Settings

What can be set for a run, with the defaults, and how settings are read from a file. A setting has
to be known, may be given once, and has to have a value of its kind.
-/

namespace Precond

/-- The settings of a run. -/
structure Settings where
  /-- The solver. -/
  solver : String := "z3"
  /-- The time for each check in milliseconds, if the solver's own is not to be used. -/
  timeout : Option Nat := none
  /-- Whether the first failure ends a run. -/
  failFast : Bool := true
  /-- The names accepted as annotations. -/
  accepted : List String := ["assume", "invariant"]
  /-- Whether obligations are logged in full. -/
  logTerms : Bool := false
  deriving DecidableEq, Repr

namespace Settings

/-- The mode of a run. -/
def mode (s : Settings) : RunMode := if s.failFast then .failFast else .collect

/-- The settings with one more entry of a file. -/
def set? (s : Settings) (key : String) (value : Toml.Value) : Option Settings :=
  match key, value with
  | "z3_path", .text path => some { s with solver := path }
  | "timeout_ms", .int (.ofNat n) => some { s with timeout := some n }
  | "fail_fast", .bool b => some { s with failFast := b }
  | "builtins", .texts names => some { s with accepted := names }
  | "dump_smt", .bool b => some { s with logTerms := b }
  | _, _ => none

/-- The settings with the entries of a file, in which no key occurs twice. -/
def setAll? (s : Settings) : List (String × Toml.Value) → Option Settings
  | [] => some s
  | (key, value) :: rest =>
    if rest.any (·.1 = key) then none
    else (s.set? key value).bind (setAll? · rest)

/-- The settings that a text gives. -/
def ofText? (text : String) : Option Settings := do
  let entries ← Toml.entries? text.toList
  ({} : Settings).setAll? entries

/-- The settings that a text gives, which comes from a file of a name if one is given. -/
def parse (text : String) (path : Option String) : Except Error Settings :=
  match ofText? text with
  | some s => .ok s
  | none => .error (.config (.invalid path))

end Settings

end Precond
