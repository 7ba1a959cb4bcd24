import Precond.Text.Blank

/-!
# Models

A solver that finds an obligation false gives a model: a value for each constant. `Model.parse`
reads the model from the solver's text, which is a list of entries
`(define-fun NAME () SORT VALUE)`. An entry counts only if it stands for a program variable: it
has no parameters and its name starts with `v_`. White space inside an entry is collapsed, and the
value `(- 5)` is written `-5`.

Names may be quoted with bars, and a parenthesis inside bars does not count; `sexpRest?` finds the
end of a balanced text by this rule.
-/

namespace Precond.Smt

/-- Why the conversation with a solver failed. -/
inductive SolverError where
  /-- The solver could not be started. -/
  | spawn (path message : String)
  /-- Reading or writing failed. -/
  | io (message : String)
  /-- A command was not accepted. -/
  | rejected (command response : String)
  /-- An answer that makes no sense at this point. -/
  | unexpected (output : String)
  /-- The solver is gone. -/
  | closed
  deriving DecidableEq, Repr

/-- What a failed conversation says. -/
def SolverError.message : SolverError → String
  | .spawn path message => s!"failed to start solver `{path}`: {message}"
  | .io message => s!"solver I/O error: {message}"
  | .rejected command response => s!"solver rejected `{command}`: {response}"
  | .unexpected output => s!"unexpected solver output: {output}"
  | .closed => "solver process exited"

/-- The values of program variables that make a formula true. -/
structure Model where
  /-- The variables with their values, in increasing order. -/
  assignments : List (String × String) := []
  deriving DecidableEq, Repr, Inhabited

namespace Model

/-- The value of the first assignment to a variable. -/
def get? (m : Model) (x : String) : Option String :=
  (m.assignments.find? (·.1 = x)).map (·.2)

/-- One assignment as it is written. -/
def renderAssignment (p : String × String) : String := s!"{p.1} = {p.2}"

/-- The assignments with commas between them. -/
def render (m : Model) : String :=
  if m.assignments.isEmpty then "(no assignments)"
  else ", ".intercalate (m.assignments.map renderAssignment)

/-! ## Reading balanced text -/

/-- What follows the parenthesis that closes the text. `depth` parentheses are open, and inside bars
parentheses do not count. The count of the characters read is given first. -/
def sexpRest? (depth : Nat) (quoted : Bool) : List Char → Option (Nat × List Char)
  | [] => none
  | c :: cs =>
    if c = '|' then (sexpRest? depth (!quoted) cs).map fun (n, r) => (n + 1, r)
    else if c = '(' && !quoted then (sexpRest? (depth + 1) quoted cs).map fun (n, r) => (n + 1, r)
    else if c = ')' && !quoted then
      match depth with
      | 0 => none
      | 1 => some (1, cs)
      | depth + 1 => (sexpRest? depth quoted cs).map fun (n, r) => (n + 1, r)
    else (sexpRest? depth quoted cs).map fun (n, r) => (n + 1, r)

/-- The balanced text at the start, which begins with a parenthesis, and what follows it. -/
def splitSexp? (cs : List Char) : Option (List Char × List Char) :=
  (sexpRest? 0 false cs).map fun (n, rest) => (cs.take n, rest)

/-- The symbol at the start, possibly between bars, and what follows it. -/
def splitSymbol? (cs : List Char) : Option (List Char × List Char) :=
  match cs with
  | '|' :: inner =>
    match inner.dropWhile (· ≠ '|') with
    | [] => none
    | bar :: rest => some ('|' :: inner.takeWhile (· ≠ '|') ++ [bar], rest)
  | cs => some (cs.takeWhile (!Text.isBlank ·), cs.dropWhile (!Text.isBlank ·))

/-- The first term, an atom or a balanced text, and what follows it. -/
def splitTerm? (cs : List Char) : Option (List Char × List Char) :=
  match Text.trimLeft cs with
  | '(' :: rest => splitSexp? ('(' :: rest)
  | cs => splitSymbol? cs

/-! ## Reading entries -/

/-- A value as it is shown: the negative number `(- 5)` is `-5`. -/
def simplifyValue (value : List Char) : List Char :=
  match Text.dropLead? ['(', '-', ' '] value with
  | some rest =>
    match rest.reverse with
    | ')' :: digits => if digits.all Char.isDigit then '-' :: digits.reverse else value
    | _ => value
  | none => value

/-- What marks the constants that stand for program variables. -/
def constantLead : List Char := ['v', '_']

/-- A text without the bars at either end. -/
def trimBars (cs : List Char) : List Char :=
  Text.dropWhileRight (· = '|') (cs.dropWhile (· = '|'))

/-- The assignment of an entry, given what stands between `(define-fun` and its closing
parenthesis. -/
def parseDefinition? (body : List Char) : Option (String × String) := do
  let (symbol, rest) ← splitSymbol? (Text.collapse body)
  let rest ← Text.dropLead? ['(', ')'] (Text.trimLeft rest)
  let name ← Text.dropLead? constantLead (trimBars symbol)
  let (_, value) ← splitTerm? (Text.trimLeft rest)
  return (String.ofList name, String.ofList (simplifyValue (Text.trim value)))

/-- What every entry begins with. -/
def entryLead : List Char := "(define-fun ".toList

/-- The assignments of the entries in a text; the first `skip` characters belong to an entry that
has been read. -/
def parseEntries : (skip : Nat) → List Char → Except SolverError (List (String × String))
  | _, [] => .ok []
  | skip + 1, _ :: cs => parseEntries skip cs
  | 0, c :: cs =>
    match Text.dropLead? entryLead (c :: cs) with
    | none => parseEntries 0 cs
    | some inner =>
      match sexpRest? 1 false inner with
      | none => .error (.unexpected s!"unbalanced model entry: {String.ofList (c :: cs)}")
      | some (n, _) => do
        let rest ← parseEntries (entryLead.length + n - 1) cs
        match parseDefinition? (inner.take (n - 1)) with
        | some assignment => return assignment :: rest
        | none => return rest

/-- Whether an assignment comes before another one or equals it. -/
def assignmentLe (p q : String × String) : Bool := p.1 < q.1 || (p.1 == q.1 && p.2 ≤ q.2)

/-- Reads the answer to a request for a model. -/
def parse (text : List Char) : Except SolverError Model :=
  let text := Text.trim text
  match text with
  | '(' :: _ => do
    let assignments ← parseEntries 0 text
    return { assignments := assignments.mergeSort assignmentLe }
  | _ => .error (.unexpected s!"not a model: {String.ofList text}")

end Model

end Precond.Smt
