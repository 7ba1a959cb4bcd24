import Precond.Smt.Model
import Precond.Smt.Term
import Precond.Text.Blank
import Precond.Text.Lines

/-!
# Solvers

A `Backend` is anything that can serve as a solver: a state machine that acknowledges commands,
answers whether what it was told can be true, and gives a model if it can. Every step may fail, and
a failed step leaves a state too. `spawn` begins with a fresh solver.

A solver that is a process writes lines and is sent lines. `Conversation` holds the lines that it
has yet to write and a record of what went back and forth. Each command is answered by one line,
which is `success` if all is well; a model, or the reason of an undecided check, is read until its
parentheses are balanced.

`process` is such a solver for a text that the process writes, or for the reason why there is no
process.
-/

namespace Precond.Smt

/-- Whether what a solver was told can be true. -/
inductive Verdict where
  | sat
  | unsat
  /-- Undecided, for a reason. -/
  | unknown (reason : String)
  deriving DecidableEq, Repr

/-- A step of a solver with states `σ`. -/
abbrev Solving (σ : Type) := ExceptT SolverError (StateM σ)

/-- A solver with states `σ`. -/
structure Backend (σ : Type) where
  /-- Begins with a fresh solver. -/
  spawn : Solving σ Unit
  /-- Tells the solver something. -/
  tell : Command → Solving σ Unit
  /-- Asks whether everything told can be true. -/
  check : Solving σ Verdict
  /-- Asks for a model, if it can. -/
  model : Solving σ Model

/-! ## Processes -/

/-- A conversation with a process. -/
structure Conversation where
  /-- The lines the process has yet to write. -/
  unread : List (List Char) := []
  /-- What was sent and read, the last line first. -/
  traffic : List String := []
  deriving Repr

namespace Conversation

/-- Sends a line. -/
def send (line : String) : Solving Conversation Unit :=
  modify fun c => { c with traffic := ("> " ++ line) :: c.traffic }

/-- Reads a line, without the blanks at its ends. -/
def receive : Solving Conversation String := do
  let c ← get
  match c.unread with
  | [] => throw .closed
  | line :: unread =>
    let line := String.ofList (Text.trim line)
    set ({ unread := unread, traffic := ("< " ++ line) :: c.traffic } : Conversation)
    return line

/-- Sends a command that has to be acknowledged. -/
def command (line : String) : Solving Conversation Unit := do
  send line
  let answer ← receive
  if answer = "success" then return () else throw (.rejected line answer)

/-- How much deeper in parentheses a text ends than it begins. -/
def nesting (text : List Char) : Int := (text.count '(' : Int) - (text.count ')' : Int)

/-- Reads lines until parentheses are balanced and something has been read, at most `n` of them.
`depth` parentheses are open, and `text` has been read. -/
def receiveBalanced (depth : Int) (text : List Char) : (n : Nat) → Solving Conversation (List Char)
  | 0 => throw .closed
  | n + 1 => do
    let line := (← receive).toList
    let depth := depth + nesting line
    let text := text ++ line ++ ['\n']
    if depth ≤ 0 && !(Text.trim text).isEmpty then return text
    receiveBalanced depth text n

/-- Reads one balanced text, which may take several lines. -/
def receiveSexp : Solving Conversation (List Char) := do
  receiveBalanced 0 [] ((← get).unread.length + 1)

/-- The text without any number of copies of `lead` in front, up to `n` of them. -/
def dropLeads (lead : List Char) : (n : Nat) → List Char → List Char
  | 0, text => text
  | n + 1, text =>
    match Text.dropLead? lead text with
    | some rest => dropLeads lead n rest
    | none => text

/-- The reason inside an answer such as `(:reason-unknown "timeout")`. -/
def reasonIn (answer : List Char) : String :=
  let inner := Text.dropWhileRight (· = ')') ((Text.trim answer).dropWhile (· = '('))
  let reason := Text.trim (dropLeads ":reason-unknown".toList inner.length inner)
  String.ofList (Text.dropWhileRight (· = '"') (reason.dropWhile (· = '"')))

/-- Asks why a check was not decided. -/
def reasonUnknown : Solving Conversation String := do
  send "(get-info :reason-unknown)"
  return reasonIn (← receiveSexp)

/-- Asks whether everything told can be true. -/
def check : Solving Conversation Verdict := do
  send "(check-sat)"
  match ← receive with
  | "sat" => return .sat
  | "unsat" => return .unsat
  | "unknown" => return .unknown (← reasonUnknown)
  | "timeout" => return .unknown "timeout"
  | other => throw (.unexpected other)

/-- Asks for a model. -/
def model : Solving Conversation Model := do
  send "(get-model)"
  let text ← receiveSexp
  if (Text.dropLead? "(error".toList (Text.trimLeft text)).isSome then
    throw (.rejected "(get-model)" (String.ofList (Text.trim text)))
  ExceptT.mk (pure (Model.parse text))

/-- Starts a process that writes a text, or fails to for a reason, and sets its options. -/
def start (path : String) (timeout : Option Nat) (output : Except String String) :
    Solving Conversation Unit := do
  match output with
  | .error reason => throw (.spawn path reason)
  | .ok text =>
    modify fun c => { c with unread := Text.splitLines text.toList }
    command "(set-option :print-success true)"
    command "(set-option :produce-models true)"
    match timeout with
    | some ms => command s!"(set-option :timeout {ms})"
    | none => return ()

end Conversation

/-- The solver at a path, of which is known what it writes, or why it cannot be started. -/
def process (path : String) (timeout : Option Nat) (output : Except String String) :
    Backend Conversation where
  spawn := Conversation.start path timeout output
  tell c := Conversation.command c.render
  check := Conversation.check
  model := Conversation.model

end Precond.Smt
