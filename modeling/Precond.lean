import Precond.Text.Span
import Precond.Text.Blank
import Precond.Text.Lines
import Precond.Text.Printable
import Precond.Text.Json
import Precond.Name.Bindings
import Precond.Name.Similar
import Precond.Logic.Op
import Precond.Logic.Ty
import Precond.Logic.Expr
import Precond.Logic.Subst
import Precond.Logic.Alpha
import Precond.Program.Stmt
import Precond.Program.LoopCut
import Precond.Exec.Value
import Precond.Exec.Arith
import Precond.Exec.Eval
import Precond.Exec.Run
import Precond.Grammar.Token
import Precond.Smt.Model
import Precond.Error
import Precond.Grammar.Lexeme
import Precond.Grammar.Layout
import Precond.Grammar.Cursor
import Precond.Grammar.TypeExpr
import Precond.Grammar.Assertion
import Precond.Host.Tree
import Precond.Host.Grammar
import Precond.Host.Module
import Precond.Host.Lowering
import Precond.Typing.Env
import Precond.Typing.Expr
import Precond.Typing.Function
import Precond.Program.Wp
import Precond.Smt.Term
import Precond.Smt.Encoding
import Precond.Smt.Process
import Precond.Smt.Script
import Precond.Verify.Session
import Precond.Verify.Report
import Precond.Verify.Run
import Precond.Settings.Toml
import Precond.Settings
import Precond.Cli.Path
import Precond.Cli.World
import Precond.Cli.Arguments
import Precond.Cli.Command
import Precond.Main
import Precond.Proofs.Readings
import Precond.Proofs.Meaning
import Precond.Proofs.PrimedNames
import Precond.Proofs.SubstitutionTermination
import Precond.Proofs.Substitution
import Precond.Proofs.Runs
import Precond.Proofs.WeakestPrecondition
import Precond.Proofs.Evaluation
import Precond.Proofs.PreconditionEvaluation
import Precond.Proofs.ComputedValues
import Precond.Proofs.ExpressionTypes
import Precond.Proofs.Checking
import Precond.Proofs.AcceptedTypes
import Precond.Proofs.StatementTypes
import Precond.Proofs.LoopCutting
import Precond.Proofs.LoopSoundness
import Precond.Proofs.SmtMeaning
import Precond.Proofs.ListEmbedding
import Precond.Proofs.StoreInterpretation
import Precond.Proofs.SolverDialogue
import Precond.Proofs.DischargeProtocol
import Precond.Proofs.RunModes
import Precond.Proofs.ModuleScopes
import Precond.Proofs.BinderNames
import Precond.Proofs.TokenNames
import Precond.Proofs.Scanning
import Precond.Proofs.LayoutTokens
import Precond.Proofs.WellFormed
import Precond.Proofs.WrittenAssertions
import Precond.Proofs.WrittenPrograms
import Precond.Proofs.AssertionGrammar
import Precond.Proofs.ParserRuns
import Precond.Proofs.AssertionSoundness
import Precond.Proofs.AssertionCompleteness
import Precond.Proofs.AssertionPrinting
import Precond.Proofs.AssertionShape
import Precond.Proofs.Lowering
import Precond.Proofs.Elaboration
import Precond.Proofs.SolverTypes
import Precond.Proofs.FunctionElaboration
import Precond.Proofs.SettledTypes
import Precond.Proofs.TypeSafety
import Precond.Proofs.PreconditionForm
import Precond.Proofs.TermSorts
import Precond.Proofs.ScriptDeclarations
import Precond.Proofs.ScriptSymbols
import Precond.Proofs.EncodingAdequacy
import Precond.Proofs.PreparedFunctions
import Precond.Proofs.RunCoverage
import Precond.Proofs.SessionBinders
import Precond.Proofs.SolverScripts
import Precond.Proofs.CaptureAvoidance
import Precond.Proofs.AlphaRenaming
import Precond.Proofs.CheckingDepth
import Precond.Proofs.InPlaceChecking
import Precond.Proofs.TypePrecision
import Precond.Proofs.TypeSlots
import Precond.Proofs.ProgramCues
import Precond.Proofs.ContractClauses
import Precond.Proofs.CellAssignment
import Precond.Proofs.SpacedTexts
import Precond.Proofs.ModelEntries
import Precond.Proofs.ModelReading
import Precond.Proofs.TokenPlaces
import Precond.Proofs.ProgramGrammar
import Precond.Proofs.ProgramSoundness
import Precond.Proofs.ExpressionCompleteness
import Precond.Proofs.ProgramCompleteness
import Precond.Proofs.QuotedTexts
import Precond.Proofs.ErrorPlaces
import Precond.Proofs.ReadingSteps
import Precond.Proofs.ReportedPlaces
import Precond.Proofs.LoopLimits
import Precond.Proofs.FloorDivision
import Precond.Proofs.Slices
import Precond.Proofs.ShownFunctions
import Precond.Proofs.TypeJoins
import Precond.Proofs.EditDistance
import Precond.Proofs.NestedPlaces
