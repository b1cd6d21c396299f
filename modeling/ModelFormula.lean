import ModelFormula.Text.Blank
import ModelFormula.Schema.DataType
import ModelFormula.Schema.Basic
import ModelFormula.Term.Basic
import ModelFormula.Term.Printer
import ModelFormula.Term.Crossing
import ModelFormula.Formula.Basic
import ModelFormula.Formula.Printer
import ModelFormula.Formula.Parser
import ModelFormula.Formula.Error
import ModelFormula.Formula.Resolution
import ModelFormula.Elementwise.Rounding
import ModelFormula.Elementwise.NearZero
import ModelFormula.Elementwise.Function
import ModelFormula.Plan.Expr
import ModelFormula.Plan.Ascending
import ModelFormula.Plan.Basic
import ModelFormula.Plan.OfTerm
import ModelFormula.Plan.Bound
import ModelFormula.Table.StorageType
import ModelFormula.Table.Column
import ModelFormula.Table.Batch
import ModelFormula.Table.Error
import ModelFormula.Table.Description
import ModelFormula.Design.Encoding
import ModelFormula.Design.Matrix
import ModelFormula.Design.Columns
import ModelFormula.Design.Source
import ModelFormula.Design.Evaluation
import ModelFormula.Model
import ModelFormula.CommandLine.Declaration
import ModelFormula.CommandLine.Command
import ModelFormula.CommandLine.Option
import ModelFormula.CommandLine.Invocation
import ModelFormula.CommandLine.Report
import ModelFormula.Main
import ModelFormula.Proofs.Grammar
import ModelFormula.Proofs.Tokens
import ModelFormula.Proofs.Acceptance
import ModelFormula.Proofs.Derivation
import ModelFormula.Proofs.Edits
import ModelFormula.Proofs.Expressible
import ModelFormula.Proofs.Regular
import ModelFormula.Proofs.Printing
import ModelFormula.Proofs.Replay
import ModelFormula.Proofs.Builder
import ModelFormula.Proofs.Callees
import ModelFormula.Proofs.RoundTrip
import ModelFormula.Proofs.Lookup
import ModelFormula.Proofs.Occurrence
import ModelFormula.Proofs.Results
import ModelFormula.Proofs.Typing
import ModelFormula.Proofs.Planning
import ModelFormula.Proofs.OutputNames
import ModelFormula.Proofs.Binding
import ModelFormula.Proofs.History
import ModelFormula.Proofs.Layout
import ModelFormula.Proofs.Misplacement
import ModelFormula.Proofs.Decoding
import ModelFormula.Proofs.MatrixAccess
import ModelFormula.Proofs.DesignMatrix
import ModelFormula.Proofs.Frame
import ModelFormula.Proofs.TermValue
import ModelFormula.Proofs.FieldPlans
import ModelFormula.Proofs.FrameColumns
import ModelFormula.Proofs.Reevaluation
import ModelFormula.Proofs.Combinations
import ModelFormula.Proofs.OutputLayout
import ModelFormula.Proofs.Partitions
import ModelFormula.Proofs.Binary64
import ModelFormula.Proofs.Missing
import ModelFormula.Proofs.CombinationCells
import ModelFormula.Proofs.Constructors
import ModelFormula.Proofs.NestedCrossings
import ModelFormula.Proofs.DesignNames
import ModelFormula.Proofs.InteractionColumns
import ModelFormula.Proofs.Expansion
import ModelFormula.Proofs.Commands
import ModelFormula.Proofs.Description
import ModelFormula.Proofs.FrameSchema
import ModelFormula.Proofs.Compatibility
import ModelFormula.Proofs.OwnBatch
import ModelFormula.Proofs.Interference
import ModelFormula.Proofs.Relocation
import ModelFormula.Proofs.Rearrangement
import ModelFormula.Proofs.Labels
import ModelFormula.Proofs.WellFormed
import ModelFormula.Proofs.Guarded
import ModelFormula.Proofs.Wildcard
import ModelFormula.Proofs.Encodings
import ModelFormula.Proofs.DesignShape
import ModelFormula.Proofs.PrintedNames
import ModelFormula.Proofs.NormalForm
import ModelFormula.Proofs.TypeText
import ModelFormula.Proofs.Selections
import ModelFormula.Proofs.CrossingLaw
import ModelFormula.Proofs.Successors
import ModelFormula.Proofs.BareNames
import ModelFormula.Proofs.Unfinished
import ModelFormula.Proofs.Refusals
import ModelFormula.Proofs.DividedChains
