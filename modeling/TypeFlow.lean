import TypeFlow.Command.Basic
import TypeFlow.Command.Run
import TypeFlow.Compilation
import TypeFlow.Document.Basic
import TypeFlow.Document.Cursor
import TypeFlow.Document.Reader
import TypeFlow.Document.Scalar
import TypeFlow.Document.Token.Lexer
import TypeFlow.Document.Token.Queue
import TypeFlow.Document.Token.Scalar
import TypeFlow.Document.Writer
import TypeFlow.Failure
import TypeFlow.Files
import TypeFlow.Files.Volume
import TypeFlow.Flow.Graph
import TypeFlow.Flow.Propagation
import TypeFlow.Inference.Blocks
import TypeFlow.Inference.Branches
import TypeFlow.Inference.CallLookup
import TypeFlow.Inference.Calls
import TypeFlow.Inference.Declarations
import TypeFlow.Inference.Dispatch
import TypeFlow.Inference.Edits
import TypeFlow.Inference.Engine
import TypeFlow.Inference.Env
import TypeFlow.Inference.Foreign
import TypeFlow.Inference.Instances
import TypeFlow.Inference.Literals
import TypeFlow.Inference.Macros
import TypeFlow.Inference.Methods
import TypeFlow.Inference.Program
import TypeFlow.Inference.Scope
import TypeFlow.Inference.Synthesis
import TypeFlow.Inference.Variables
import TypeFlow.Inference.Visit
import TypeFlow.Main
import TypeFlow.Overload.Candidates
import TypeFlow.Overload.Cover
import TypeFlow.Overload.Resolution
import TypeFlow.Overload.Restriction
import TypeFlow.Proofs.Document.Separator
import TypeFlow.Proofs.Document.Shown
import TypeFlow.Proofs.Flow.Batch
import TypeFlow.Proofs.Flow.Following
import TypeFlow.Proofs.Flow.Network
import TypeFlow.Proofs.Flow.Nodes
import TypeFlow.Proofs.Flow.Quiescence
import TypeFlow.Proofs.Flow.Run
import TypeFlow.Proofs.Flow.Scripts
import TypeFlow.Proofs.Flow.Steady
import TypeFlow.Proofs.Flow.Web
import TypeFlow.Proofs.Flow.Wiring
import TypeFlow.Proofs.Inference.BlockViews
import TypeFlow.Proofs.Inference.Current
import TypeFlow.Proofs.Inference.Defaults
import TypeFlow.Proofs.Inference.Dispatch
import TypeFlow.Proofs.Inference.Echoing
import TypeFlow.Proofs.Inference.Evolution
import TypeFlow.Proofs.Inference.Expansions
import TypeFlow.Proofs.Inference.Failures
import TypeFlow.Proofs.Inference.NewCalls
import TypeFlow.Proofs.Inference.Responding
import TypeFlow.Proofs.Inference.Retried
import TypeFlow.Proofs.Inference.Subcalls
import TypeFlow.Proofs.Inference.Typing
import TypeFlow.Proofs.Inference.Yielding
import TypeFlow.Proofs.Overload.Alternatives
import TypeFlow.Proofs.Overload.Boxes
import TypeFlow.Proofs.Overload.Comparison
import TypeFlow.Proofs.Overload.Cover
import TypeFlow.Proofs.Overload.Dispatch
import TypeFlow.Proofs.Overload.Exact
import TypeFlow.Proofs.Overload.Linear
import TypeFlow.Proofs.Overload.Matching
import TypeFlow.Proofs.Overload.Specificity
import TypeFlow.Proofs.Overload.Steady
import TypeFlow.Proofs.Overload.Whole
import TypeFlow.Proofs.Report.Reaching
import TypeFlow.Proofs.Settings.Promotion
import TypeFlow.Proofs.Standard.NumericCalls
import TypeFlow.Proofs.Standard.NumericTyping
import TypeFlow.Proofs.Standard.Served
import TypeFlow.Proofs.Standard.Tower
import TypeFlow.Proofs.Text.Utf8
import TypeFlow.Proofs.Tree.Composition
import TypeFlow.Proofs.Tree.Fields
import TypeFlow.Proofs.Tree.Leaves
import TypeFlow.Proofs.Tree.RoundTrip
import TypeFlow.Proofs.Tree.Substitution
import TypeFlow.Proofs.TypeExpr.Grammar
import TypeFlow.Proofs.TypeExpr.NormalForm
import TypeFlow.Proofs.TypeExpr.RoundTrip
import TypeFlow.Proofs.Types.Acceptance
import TypeFlow.Proofs.Types.Ancestors
import TypeFlow.Proofs.Types.Arising
import TypeFlow.Proofs.Types.Built
import TypeFlow.Proofs.Types.ClassTree
import TypeFlow.Proofs.Types.CommonAncestor
import TypeFlow.Proofs.Types.Concrete
import TypeFlow.Proofs.Types.Determined
import TypeFlow.Proofs.Types.Equivalence
import TypeFlow.Proofs.Types.Identity
import TypeFlow.Proofs.Types.Inferred
import TypeFlow.Proofs.Types.Inheritance
import TypeFlow.Proofs.Types.Interning
import TypeFlow.Proofs.Types.JoinedClasses
import TypeFlow.Proofs.Types.Lineage
import TypeFlow.Proofs.Types.Merge
import TypeFlow.Proofs.Types.MergeLaws
import TypeFlow.Proofs.Types.Narrowed
import TypeFlow.Proofs.Types.Narrowing
import TypeFlow.Proofs.Types.Naming
import TypeFlow.Proofs.Types.Nominal
import TypeFlow.Proofs.Types.Parts
import TypeFlow.Proofs.Types.Preorder
import TypeFlow.Proofs.Types.Regular
import TypeFlow.Proofs.Types.Repeating
import TypeFlow.Proofs.Types.Simulation
import TypeFlow.Proofs.Unification.Canonical
import TypeFlow.Proofs.Unification.Chains
import TypeFlow.Proofs.Unification.Replacement
import TypeFlow.Proofs.Unification.Steps
import TypeFlow.Proofs.Unification.Termination
import TypeFlow.Report.Diagnostic
import TypeFlow.Report.Listing
import TypeFlow.Report.Reachability
import TypeFlow.Settings.Basic
import TypeFlow.Settings.Load
import TypeFlow.Settings.Numeric
import TypeFlow.Standard.Load
import TypeFlow.Standard.Numeric
import TypeFlow.Text.Basic
import TypeFlow.Text.Printable
import TypeFlow.Text.Quoted
import TypeFlow.Text.Terminal
import TypeFlow.Text.Utf8
import TypeFlow.Toml.Basic
import TypeFlow.Toml.Draft
import TypeFlow.Toml.Lexeme
import TypeFlow.Toml.Reader
import TypeFlow.Tree.Basic
import TypeFlow.Tree.Decode
import TypeFlow.Tree.Encode
import TypeFlow.Tree.Expansion
import TypeFlow.Tree.Fields
import TypeFlow.Tree.Kind
import TypeFlow.Tree.Traverse
import TypeFlow.TypeExpr.Basic
import TypeFlow.TypeExpr.Parser
import TypeFlow.Types.Ancestry
import TypeFlow.Types.Basic
import TypeFlow.Types.Equality
import TypeFlow.Types.Subtyping
import TypeFlow.Types.Fingerprint
import TypeFlow.Types.Lookup
import TypeFlow.Types.Merge
import TypeFlow.Types.Naming
import TypeFlow.Types.Table
import TypeFlow.Unification
