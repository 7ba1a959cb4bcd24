import Precond.Error
import Precond.Text.Json

/-!
# Reports

What a run finds out about each function, and the totals. A report is shown as text or as JSON.
-/

namespace Precond

/-- What became of a function. -/
inductive Status where
  | verified
  | violated
  | unknown
  /-- It did not reach the solver. -/
  | error
  deriving DecidableEq, Repr

/-- What a status is called. -/
def Status.name : Status → String
  | .verified => "Verified"
  | .violated => "Violated"
  | .unknown => "Unknown"
  | .error => "Error"

/-- What a run finds out about a function. -/
structure Finding where
  /-- The name of the function. -/
  function : String
  /-- The name of its scope. -/
  scope : String
  /-- What became of it. -/
  status : Status
  /-- The number of obligations that were proven. -/
  proven : Nat := 0
  /-- The obligation that was not proven. -/
  failing : Option Expr := none
  /-- Values for which it is false. -/
  counterexample : List (String × String) := []
  /-- What went wrong. -/
  message : Option String := none
  /-- The time it took, in milliseconds; zero if nobody measures it. -/
  time : Nat := 0
  deriving Repr

namespace Finding

/-- The finding about a function all of whose obligations were proven. -/
def ofProven (scope function : String) (proven : Nat) : Finding :=
  { function, scope, status := .verified, proven }

/-- The finding about a function that failed. -/
def ofError (scope function : String) (e : Error) : Finding :=
  match e with
  | .violated _ _ formula model =>
    { function, scope, status := .violated, failing := some formula,
      counterexample := model.assignments, message := some e.render }
  | .undecided _ formula _ =>
    { function, scope, status := .unknown, failing := some formula, message := some e.render }
  | e => { function, scope, status := .error, message := some e.render }

/-- The finding as lines of text. -/
def render (f : Finding) : String :=
  let path := s!"{f.scope}::{f.function}"
  match f.status with
  | .verified => s!"✓ {path}: verified ({f.proven} obligation(s))"
  | .violated =>
    let failing := f.failing.elim "" fun e => "\n  obligation: " ++ e.render
    let counterexample :=
      if f.counterexample.isEmpty then ""
      else "\n  counterexample: " ++
        ", ".intercalate (f.counterexample.map Smt.Model.renderAssignment)
    s!"✗ {path}: violated{failing}{counterexample}"
  | .unknown => s!"? {path}: unknown\n  " ++ f.message.getD ""
  | .error => s!"! {path}: " ++ f.message.getD "error"

/-- The finding as JSON; what it lacks is left out. -/
def toJson (f : Finding) : Text.Json :=
  .object <|
    [("name", .text f.function), ("scope", .text f.scope), ("status", .text f.status.name),
      ("obligations_checked", .count f.proven)] ++
    f.failing.elim [] (fun e => [("failing_obligation", .text e.render)]) ++
    (if f.counterexample.isEmpty then []
      else [("counterexample",
        .array (f.counterexample.map fun (x, v) => .array [.text x, .text v]))]) ++
    f.message.elim [] (fun m => [("message", .text m)]) ++
    [("time_ms", .count f.time)]

end Finding

/-- What a run finds out about its functions, in the order of the program. -/
structure Report where
  /-- The findings. -/
  findings : List Finding
  deriving Repr

namespace Report

/-- The number of functions with a status. -/
def count (r : Report) (status : Status) : Nat := r.findings.countP (·.status = status)

/-- The time that all functions took. -/
def time (r : Report) : Nat := r.findings.foldr (fun f n => f.time + n) 0

/-- Whether all functions were verified. -/
def allVerified (r : Report) : Bool := r.findings.all (·.status = .verified)

/-- The totals as a line of text. -/
def summary (r : Report) : String :=
  s!"Verified: {r.count .verified}, Violated: {r.count .violated}, " ++
    s!"Unknown: {r.count .unknown}, Errors: {r.count .error} ({r.time}ms)"

/-- The report as lines of text. -/
def render (r : Report) : String :=
  let lines := r.findings.map fun f => f.render ++ "\n"
  let last :=
    if r.allVerified then s!"All {r.findings.length} function(s) verified successfully."
    else r.summary
  String.join lines ++ "\n" ++ last ++ "\n"

/-- The report as JSON. -/
def toJson (r : Report) : Text.Json :=
  .object
    [ ("functions", .array (r.findings.map Finding.toJson)),
      ("verified_count", .count (r.count .verified)),
      ("violated_count", .count (r.count .violated)),
      ("unknown_count", .count (r.count .unknown)),
      ("error_count", .count (r.count .error)),
      ("total_time_ms", .count r.time) ]

end Report

end Precond
