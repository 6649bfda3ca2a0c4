import BlockFlow.Text.Quoted
import BlockFlow.Text.Blank
import BlockFlow.Text.Capital
import BlockFlow.Text.Numeral
import BlockFlow.Text.Letter
import BlockFlow.Token.Scanner
import BlockFlow.Tree.Text
import BlockFlow.Tree.Derivation
import BlockFlow.Tree.Shape
import BlockFlow.Graph.Listing
import BlockFlow.Graph.Folding
import BlockFlow.Graph.Lowering
import BlockFlow.Machine.Batch
import BlockFlow.Ssa.Build
import BlockFlow.Ssa.Listing
import BlockFlow.Log.Line
import BlockFlow.Log.JournalKey
import BlockFlow.Settings.File
import BlockFlow.Program.Compile
import BlockFlow.Program.Run
import BlockFlow.Main
import BlockFlow.Proofs.Evaluation
import BlockFlow.Proofs.Folding
import BlockFlow.Proofs.Grammar
import BlockFlow.Proofs.Recognition
import BlockFlow.Proofs.Meaning
import BlockFlow.Proofs.Lowering.Code
import BlockFlow.Proofs.Lowering.Layout
import BlockFlow.Proofs.Lowering.Stages
import BlockFlow.Proofs.Lowering.Forms
import BlockFlow.Proofs.Lowering.Construction
import BlockFlow.Proofs.Lowering.Statements
import BlockFlow.Proofs.Lowering.Links
import BlockFlow.Proofs.Variables
import BlockFlow.Proofs.Tree.Leaves
import BlockFlow.Proofs.Tree.Segments
import BlockFlow.Proofs.Tree.NormalForm
import BlockFlow.Proofs.Preservation
import BlockFlow.Proofs.Reachability
import BlockFlow.Proofs.Dominance.Ways
import BlockFlow.Proofs.Dominance.Sweeps
import BlockFlow.Proofs.Dominance.Tree
import BlockFlow.Proofs.Dominance.Frontiers
import BlockFlow.Proofs.Ssa.Versions
import BlockFlow.Proofs.Ssa.Renaming
import BlockFlow.Proofs.Ssa.Placement
import BlockFlow.Proofs.Ssa.Routes
import BlockFlow.Proofs.Lowering.Regularity
import BlockFlow.Proofs.Tree.Grouping
import BlockFlow.Proofs.Tree.Normalization
import BlockFlow.Proofs.Lowering.Operators
import BlockFlow.Proofs.Token.Places
import BlockFlow.Proofs.Compilation
import BlockFlow.Proofs.Batch.Endings
import BlockFlow.Proofs.Batch.Executor
import BlockFlow.Proofs.Batch.Schedules
import BlockFlow.Proofs.Ssa.Dominators
import BlockFlow.Proofs.Token.Patterns
import BlockFlow.Proofs.Token.Tokenizing
import BlockFlow.Proofs.Lowering.Soundness
import BlockFlow.Proofs.Safety
import BlockFlow.Proofs.Formatting.Parsing
import BlockFlow.Proofs.Formatting.Passes
import BlockFlow.Proofs.Formatting.Compiling
import BlockFlow.Proofs.Lowering.Checked
import BlockFlow.Proofs.Reuse
import BlockFlow.Proofs.Ssa.Frontiers
import BlockFlow.Proofs.Ssa.Phis
import BlockFlow.Proofs.Ssa.Visits
import BlockFlow.Proofs.Ssa.DominatorTree
import BlockFlow.Proofs.Ssa.Numbering
import BlockFlow.Proofs.Cutoffs
import BlockFlow.Proofs.Token.Spans
import BlockFlow.Proofs.Token.Lines
import BlockFlow.Proofs.Lowering.Reducibility
import BlockFlow.Proofs.Tree.Grammatical
import BlockFlow.Proofs.Tree.Rewriting
import BlockFlow.Proofs.Tree.Commutation
import BlockFlow.Proofs.Tree.Idempotence
import BlockFlow.Proofs.Tree.Numbers
import BlockFlow.Proofs.Lowering.Readability
import BlockFlow.Proofs.Tree.Ungrouping
import BlockFlow.Proofs.Regrouping
import BlockFlow.Proofs.FoldedForm
import BlockFlow.Proofs.StepCounts
import BlockFlow.Proofs.Dominance.Loops
import BlockFlow.Proofs.Ssa.Termination
import BlockFlow.Proofs.Printing
import BlockFlow.Proofs.Tree.ShortText
import BlockFlow.Proofs.Labels
import BlockFlow.Proofs.FlagSpellings
import BlockFlow.Proofs.StackAccess
import BlockFlow.Proofs.DepthFirst
import BlockFlow.Proofs.Token.Progress
import BlockFlow.Proofs.WordArithmetic
