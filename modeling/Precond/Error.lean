import Precond.Grammar.Token
import Precond.Logic.Alpha
import Precond.Name.Similar
import Precond.Smt.Model
import Precond.Text.Span

/-!
# Errors

Everything that can keep a function from being verified. Each stage names its causes; `message`
words them, in one place for each stage. An `Error` adds where the cause lies. `Error.shift` moves
that place, for text that is quoted inside a program, and `Error.orSpan` supplies it where it is
still missing.

`Naming` is a computation that draws fresh names and may fail. What it drew before it failed stays
drawn, so that names are never handed out twice.
-/

namespace Precond

/-- Why a text does not split into tokens. -/
inductive LexCause where
  /-- A text that starts no token. -/
  | unexpectedText (text : String)
  | unmatchedUnindent
  | openBracketAtEnd
  /-- A cause in the caller's own words. -/
  | note (text : String)
  deriving DecidableEq, Repr

/-- Why tokens do not form what they should. -/
inductive ParseCause where
  /-- A token that cannot stand at its place. -/
  | unexpectedToken (token : Grammar.Token) (place : Span)
  /-- The text ends too early. -/
  | unexpectedEnd (place : Nat)
  | duplicateScope (name : String)
  | scopeArgument
  | contractNotList
  | contractEntry
  | annotationArgument (name : String)
  /-- A cause in the caller's own words. -/
  | note (text : String)
  deriving DecidableEq, Repr

/-- Why types do not fit. -/
inductive TypeCause where
  | unknownType (written : String)
  | undefinedVariable (name : String) (suggestion : Option String)
  | mismatch (expr : Expr) (expected found : Ty)
  | notSubscriptable (base : Expr) (found : Ty)
  | unresolvedQuantifier (var : String)
  | unknownFunction (name : String) (suggestion : Option String)
  | arity (name : String) (expected found : Nat)
  /-- An assignment of another type than the variable has. -/
  | mutation (var : String) (current : Ty) (expr : Expr) (found : Ty)
  /-- An open type where a settled one is needed. -/
  | unresolvedSort
  | undefinedInObligation (name : String)
  | unresolvedVariable (name : String)
  | notSubscriptableValue (found : Ty)
  | untypedQuantifier (var : String)
  /-- An expression that is nested deeper than it was said to be. -/
  | tooDeep
  /-- A cause in the caller's own words. -/
  | note (text : String)
  deriving DecidableEq, Repr

/-- What cannot be handled. -/
inductive UnsupportedCause where
  | topLevelStatement
  | decorator (name : String)
  | verifyArgument (name : String)
  | invariantOutsideLoop
  | annotationInBody (name : String)
  | functionCall (name : String)
  | idleExpression
  | stringLiteral
  | listLiteral
  | comparisonChain
  | sliceAssignment
  | assignmentTarget
  | noSort (ty : Ty)
  | functionValue (name : String)
  | encodedSlice (expr : Expr)
  | encodedCall (name : String) (count : Nat)
  /-- A cause in the caller's own words. -/
  | note (text : String)
  deriving DecidableEq, Repr

/-- What is wrong with the settings of a run. -/
inductive ConfigCause where
  | unknownScope (name : String) (suggestion : Option String)
  | unreadable (path reason : String)
  /-- A settings file, or text, that is not understood. -/
  | invalid (path : Option String)
  /-- A cause in the caller's own words. -/
  | note (text : String)
  deriving DecidableEq, Repr

/-- What a cause says. -/
def LexCause.message : LexCause → String
  | .unexpectedText text => s!"unexpected character: {Text.quote text}"
  | .unmatchedUnindent => "unindent does not match any outer indentation level"
  | .openBracketAtEnd => "unexpected end of file inside brackets"
  | .note text => text

/-- What a cause says. -/
def ParseCause.message : ParseCause → String
  | .unexpectedToken token place =>
    s!"Unrecognized token `{token.render}` found at {place.start}:{place.stop}"
  | .unexpectedEnd place => s!"Unrecognized EOF found at {place}"
  | .duplicateScope name => s!"scope `{name}` is declared twice"
  | .scopeArgument => "scope() takes exactly one string argument"
  | .contractNotList => "contract must be a list of assertion strings"
  | .contractEntry => "contract entries must be string literals"
  | .annotationArgument name => s!"{name}() takes exactly one assertion string"
  | .note text => text

/-- What a cause says. -/
def TypeCause.message : TypeCause → String
  | .unknownType written => s!"unsupported type annotation `{written}`"
  | .undefinedVariable name suggestion =>
    s!"undefined variable: `{name}`{Name.hint suggestion}"
  | .mismatch expr expected found =>
    s!"type mismatch in `{expr.render}`: expected `{expected.render}`, found `{found.render}`"
  | .notSubscriptable base found =>
    s!"cannot subscript `{base.render}` of type `{found.render}`"
  | .unresolvedQuantifier var =>
    s!"cannot infer the type of quantified variable `{var}`; add an annotation"
  | .unknownFunction name suggestion => s!"unknown function: `{name}`{Name.hint suggestion}"
  | .arity name expected found =>
    s!"`{name}` takes {expected} argument(s) but {found} were given"
  | .mutation var current expr found =>
    s!"type mutation: `{var}` has type `{current.render}` but is assigned `{expr.render}` " ++
      s!"of type `{found.render}`"
  | .unresolvedSort => "unresolved type reached the encoder"
  | .undefinedInObligation name => s!"undefined variable in obligation: `{name}`"
  | .unresolvedVariable name => s!"cannot determine the type of `{name}`"
  | .notSubscriptableValue found => s!"cannot subscript a value of type `{found.render}`"
  | .untypedQuantifier var => s!"quantified variable `{var}` has no resolved type"
  | .tooDeep => "expression is nested too deeply"
  | .note text => text

/-- What a cause says. -/
def UnsupportedCause.message : UnsupportedCause → String
  | .topLevelStatement =>
    "only function definitions and scope(...) calls are allowed at top level"
  | .decorator name => s!"unknown decorator `@{name}`"
  | .verifyArgument name => s!"unknown @verify argument `{name}`"
  | .invariantOutsideLoop => "invariant(...) is only allowed directly inside a while loop"
  | .annotationInBody name => s!"annotation `{name}` has no meaning in a function body"
  | .functionCall name => s!"call to `{name}` is not supported"
  | .idleExpression => "expression statement has no effect"
  | .stringLiteral => "string literals are only allowed as annotation arguments"
  | .listLiteral => "list literals are not supported"
  | .comparisonChain => "chained comparisons are not supported"
  | .sliceAssignment => "assignment to a slice is not supported"
  | .assignmentTarget => "unsupported assignment target"
  | .noSort ty => s!"values of type `{ty.render}` have no solver sort"
  | .functionValue name => s!"function `{name}`"
  | .encodedSlice expr => s!"slices cannot be encoded for the solver: `{expr.render}`"
  | .encodedCall name count => s!"call to `{name}` with {count} argument(s)"
  | .note text => text

/-- What a cause says. -/
def ConfigCause.message : ConfigCause → String
  | .unknownScope name suggestion => s!"no scope named `{name}`{Name.hint suggestion}"
  | .unreadable path reason => s!"cannot read {path}: {reason}"
  | .invalid (some path) => path
  | .invalid none => "not a valid settings file"
  | .note text => text

/-- Why a function was not verified. -/
inductive Error where
  | lex (cause : LexCause) (span : Span)
  | parse (cause : ParseCause) (span : Option Span)
  | type (cause : TypeCause) (span : Option Span)
  | unsupported (cause : UnsupportedCause) (span : Option Span)
  /-- Weakest preconditions were asked for before the loops were cut. -/
  | uncutLoop
  | missingReturnType (function : String) (span : Option Span)
  /-- The solver found values for which an obligation is false. -/
  | violated (function : String) (kind : Obligation.Kind) (formula : Expr) (model : Smt.Model)
  /-- The solver could not decide an obligation. -/
  | undecided (function : String) (formula : Expr) (reason : String)
  | solver (cause : Smt.SolverError)
  | io (message : String)
  | config (cause : ConfigCause)
  deriving DecidableEq, Repr

namespace Error

/-- The full text of an error. -/
def render : Error → String
  | .lex cause span => s!"Lexer error at {span.render}: {cause.message}"
  | .parse cause _ => s!"Parse error: {cause.message}"
  | .type cause _ => s!"Type error: {cause.message}"
  | .unsupported cause _ => s!"Unsupported construct: {cause.message}"
  | .uncutLoop => "Unsupported construct: while loop reached the WP engine undesugared"
  | .missingReturnType function _ => s!"function `{function}` has no declared return type"
  | .violated function kind formula model =>
    s!"Verification violated in `{function}` ({kind.render}): {formula.render}\n" ++
      s!"counterexample: {model.render}"
  | .undecided function formula reason =>
    s!"Solver returned unknown in `{function}` ({reason}): {formula.render}"
  | .solver cause => cause.message
  | .io message => s!"IO error: {message}"
  | .config cause => s!"Config error: {cause.message}"

/-- The text of an error without the name of its category. -/
def message : Error → String
  | .lex cause _ => cause.message
  | .parse cause _ => cause.message
  | .type cause _ => cause.message
  | .unsupported cause _ => cause.message
  | .io message => message
  | .config cause => cause.message
  | e => e.render

/-- The category of an error. -/
def category : Error → String
  | .lex .. => "Lexer"
  | .parse .. => "Parse"
  | .type .. => "Type"
  | .unsupported .. | .uncutLoop => "Unsupported"
  | .missingReturnType .. => "Signature"
  | .violated .. => "Verification"
  | .undecided .. | .solver _ => "Solver"
  | .io _ => "IO"
  | .config _ => "Config"

/-- Where an error lies, if it lies in a text. -/
def span? : Error → Option Span
  | .lex _ span => some span
  | .parse _ span | .type _ span | .unsupported _ span | .missingReturnType _ span => span
  | _ => none

/-- The error of a text that stands `offset` bytes further on in another text. -/
def shift (offset : Nat) : Error → Error
  | .lex cause span => .lex cause (span.shift offset)
  | .parse cause span => .parse cause (span.map (·.shift offset))
  | .type cause span => .type cause (span.map (·.shift offset))
  | .unsupported cause span => .unsupported cause (span.map (·.shift offset))
  | e => e

/-- The error with a place, if it has none of its own. -/
def orSpan (place : Span) : Error → Error
  | .parse cause none => .parse cause (some place)
  | .type cause none => .type cause (some place)
  | .unsupported cause none => .unsupported cause (some place)
  | e => e

/-- Whether an obligation was reached and not proven. -/
def isVerificationFailure : Error → Bool
  | .violated .. | .undecided .. => true
  | _ => false

/-- Whether an error ends a run even if failures are collected. -/
def isFatal : Error → Bool
  | .uncutLoop | .solver _ | .io _ | .config _ => true
  | _ => false

end Error

/-- A computation that draws fresh names and may fail. -/
abbrev Naming := ExceptT Error (StateM Supply)

/-- A value or a failure, as a computation that draws no names. -/
def Naming.ofExcept {α : Type} (r : Except Error α) : Naming α := ExceptT.mk (pure r)

end Precond
