/-!
# Command lines

`Request.parse` reads the arguments of a command line. There are three commands: `check` verifies a
file, `tokens` lists the tokens of a file, and `assertion` shows how an assertion is read. A line
that is not understood asks for nothing; the version or help may be asked for in front of a
command.

Arguments are read from left to right, and the first one that is wrong or asks for help decides.
A long option takes its value from behind an equals sign, or from the next argument if that does
not look like an option. No option may be given twice. After `--` everything is an operand.
-/

namespace Precond.Cli

/-- How to check a program. -/
structure CheckOptions where
  /-- The settings file, if not the one beside the program. -/
  config : Option String := none
  /-- The only scope to be verified. -/
  scope : Option String := none
  /-- Whether failures are collected. -/
  collect : Bool := false
  /-- The solver, if not the one that is set. -/
  solver : Option String := none
  /-- The time for each check in milliseconds, if not the one that is set. -/
  timeout : Option Nat := none
  /-- Whether the statements of each function are shown. -/
  showBodies : Bool := false
  /-- Whether the obligations of each function are shown. -/
  showObligations : Bool := false
  /-- Whether the report is shown as JSON. -/
  json : Bool := false
  deriving DecidableEq, Repr

/-- What a command line asks for. -/
inductive Request where
  | check (file : String) (options : CheckOptions)
  | tokens (file : String)
  | assertion (text : String)
  deriving DecidableEq, Repr

/-- Why a command line asks for no command. -/
inductive Stop where
  | version
  | help
  /-- It is not understood. -/
  | usage
  deriving DecidableEq, Repr

/-- A piece of the arguments of a command. -/
inductive Piece where
  | flag (name : String)
  | option (name value : String)
  | operand (text : String)
  deriving DecidableEq, Repr

/-- The options that a command knows. -/
structure Options where
  /-- Those that take a value. -/
  valued : List String := []
  /-- Those that take none. -/
  flags : List String := []
  deriving DecidableEq, Repr

/-- Reads short options, of which `v` asks for more messages. -/
def shortOptions (withVersion : Bool) : List Char → Except Stop Unit
  | [] => .ok ()
  | 'v' :: cs => shortOptions withVersion cs
  | 'h' :: _ => .error .help
  | 'V' :: _ => .error (if withVersion then .version else .usage)
  | _ :: _ => .error .usage

/-- The name of a long option and the value behind its equals sign, if it has one. -/
def splitOption (cs : List Char) : String × Option String :=
  let name := String.ofList (cs.takeWhile (· ≠ '='))
  match cs.dropWhile (· ≠ '=') with
  | [] => (name, none)
  | _ :: value => (name, some (String.ofList value))

/-- Whether an argument looks like an option. -/
def looksLikeOption (arg : String) : Bool :=
  match arg.toList with
  | '-' :: _ :: _ => true
  | _ => false

/-- Reads the arguments of a command from left to right and hands each piece to `take`, with what
has been taken before. The first argument that cannot be taken, or asks for help, decides. -/
def readArguments {σ : Type} (known : Options) (take : Piece → σ → Except Stop σ) :
    List String → σ → Except Stop σ
  | [], s => .ok s
  | arg :: args, s =>
    match arg.toList with
    | ['-', '-'] => args.foldlM (fun s text => take (.operand text) s) s
    | '-' :: '-' :: long =>
      match splitOption long, args with
      | ("help", none), _ => .error .help
      | ("verbose", none), args => readArguments known take args s
      | (name, some value), args =>
        if name ∈ known.valued then do readArguments known take args (← take (.option name value) s)
        else .error .usage
      | (name, none), args =>
        if name ∈ known.flags then do readArguments known take args (← take (.flag name) s)
        else if name ∈ known.valued then
          match args with
          | [] => .error .usage
          | value :: args =>
            if looksLikeOption value then .error .usage
            else do readArguments known take args (← take (.option name value) s)
        else .error .usage
    | '-' :: c :: short => do
      shortOptions false (c :: short)
      readArguments known take args s
    | _ => do readArguments known take args (← take (.operand arg) s)

/-- A value in a place that is still free. -/
def once {α : Type} (old : Option α) (new : α) : Except Stop (Option α) :=
  if old.isSome then .error .usage else .ok (some new)

/-- A flag that is raised for the first time. -/
def raised (old : Bool) : Except Stop Bool := if old then .error .usage else .ok true

/-- A path, which is not empty. -/
def path (text : String) : Except Stop String :=
  if text.isEmpty then .error .usage else .ok text

/-- The digits of a number, which may have a plus sign in front. -/
def unsigned : List Char → List Char
  | '+' :: cs => cs
  | cs => cs

/-- The greatest number that an option takes. -/
def maxValue : Nat := 18446744073709551615

/-- A number that an option takes. -/
def number (text : String) : Except Stop Nat :=
  let digits := unsigned text.toList
  let n := digits.foldl (fun n c => 10 * n + (c.toNat - '0'.toNat)) 0
  if !digits.isEmpty && digits.all Char.isDigit && n ≤ maxValue then .ok n else .error .usage

/-- The options of `check`. -/
def checkKnown : Options :=
  { valued := ["config", "scope", "z3", "timeout"]
    flags := ["collect", "emit-ir", "emit-vc", "json"] }

/-- Takes a piece of the arguments of `check`: the program, or an option. -/
def takeCheck (piece : Piece) (taken : Option String × CheckOptions) :
    Except Stop (Option String × CheckOptions) := do
  let (file, o) := taken
  match piece with
  | .operand text => return (← once file (← path text), o)
  | .option "config" value => return (file, { o with config := ← once o.config (← path value) })
  | .option "scope" value => return (file, { o with scope := ← once o.scope value })
  | .option "z3" value => return (file, { o with solver := ← once o.solver value })
  | .option "timeout" value =>
    return (file, { o with timeout := ← once o.timeout (← number value) })
  | .flag "collect" => return (file, { o with collect := ← raised o.collect })
  | .flag "emit-ir" => return (file, { o with showBodies := ← raised o.showBodies })
  | .flag "emit-vc" => return (file, { o with showObligations := ← raised o.showObligations })
  | .flag "json" => return (file, { o with json := ← raised o.json })
  | _ => .error .usage

/-- Takes the one operand of a command without options, if it is acceptable. -/
def takeOperand (accept : String → Except Stop String) (piece : Piece) (taken : Option String) :
    Except Stop (Option String) := do
  match piece with
  | .operand text => once taken (← accept text)
  | _ => .error .usage

/-- An operand that has to be there. -/
def needed : Option String → Except Stop String
  | some text => .ok text
  | none => .error .usage

/-- The names of the commands. -/
def commandNames : List String := ["check", "tokens", "assertion", "help"]

/-- What a command with its arguments asks for. -/
def parseCommand (name : String) (args : List String) : Except Stop Request :=
  match name with
  | "check" => do
    let (file, options) ← readArguments checkKnown takeCheck args (none, {})
    return .check (← needed file) options
  | "tokens" => do
    let file ← readArguments {} (takeOperand path) args none
    return .tokens (← needed file)
  | "assertion" => do
    let text ← readArguments {} (takeOperand .ok) args none
    return .assertion (← needed text)
  | "help" =>
    match args with
    | [] => .error .help
    | [topic] => .error (if topic ∈ commandNames then .help else .usage)
    | _ => .error .usage
  | _ => .error .usage

/-- What a command line asks for. -/
def Request.parse : List String → Except Stop Request
  | [] => .error .usage
  | arg :: args =>
    match arg.toList with
    | ['-', '-'] => .error .usage
    | '-' :: '-' :: long =>
      match splitOption long with
      | ("version", none) => .error .version
      | ("help", none) => .error .help
      | ("verbose", none) => parse args
      | _ => .error .usage
    | '-' :: c :: short => do
      shortOptions true (c :: short)
      parse args
    | _ => parseCommand arg args

end Precond.Cli
