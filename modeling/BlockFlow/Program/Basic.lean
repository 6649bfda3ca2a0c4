import BlockFlow.Drawing
import BlockFlow.Graph.Listing
import BlockFlow.Graph.Lowering
import BlockFlow.Settings.Basic
import BlockFlow.Ssa.Build
import BlockFlow.Ssa.Listing
import BlockFlow.Token.Scanner
import BlockFlow.Tree.Derivation
import BlockFlow.Tree.Shape
import BlockFlow.Tree.Text

/-!
# Programs

A program keeps every stage it went through: its text, its tokens, the tree of its grammar and,
unless it was only parsed, its normal tree and its control-flow graph.  Each stage can be shown as a
drawing, the later ones as a listing, too.
-/

namespace BlockFlow

/-! ### Errors -/

/-- Why a text is not a program. -/
inductive CompileError where
  /-- It cannot be cut into tokens. -/
  | scanning (error : ScanError)
  /-- Its tokens do not follow the grammar. -/
  | grammar (error : SyntaxError)
  /-- Its normal tree does not have the normal shape. -/
  | shape (error : ShapeError)
  /-- Its normal tree has no control-flow graph. -/
  | lowering (error : LowerError)
deriving Repr, Inhabited

namespace CompileError

/-- Where the text is at fault, for an error that a place in the text causes. -/
def position? : CompileError → Option Position
  | scanning e => some e.position
  | grammar e => some e.position
  | _ => none

/-- What is wrong, without the place. -/
def detail : CompileError → String
  | scanning e => e.detail
  | grammar e => e.detail
  | shape e => e.message
  | lowering e => e.message

/-- The full diagnostic. -/
def message (e : CompileError) : String :=
  match e.position? with
  | some p =>
    "parse error at " ++ toString p.line ++ ":" ++ toString p.column ++ ": " ++ e.detail
  | none => "compile error: " ++ e.detail

end CompileError

/-- Why a stage of a program cannot be shown. -/
inductive StageError where
  /-- The program was only parsed. -/
  | onlyParsed (stage : String)
  /-- No stage has this name. -/
  | unknownStage (stage : String)
  /-- The graph has no static single assignment form. -/
  | noSsa (error : SsaError)
deriving DecidableEq, Repr, Inhabited

/-- What is said of a program that is needed in a later stage. -/
def onlyParsedMessage : String :=
  "program was only parsed"

namespace StageError

/-- The wording of an error. -/
def message : StageError → String
  | onlyParsed stage => stage ++ ": " ++ onlyParsedMessage
  | unknownStage stage => "unknown stage " ++ Text.quote stage
  | noSsa _ => "index out of range"

end StageError

/-! ### Stages -/

/-- The later stages of a program. -/
structure Lowered where
  /-- The normal tree. -/
  ast : Node
  /-- The control-flow graph. -/
  graph : Graph
deriving Inhabited

/-- A program with all its stages. -/
structure Program where
  /-- The text, as bytes; empty for a program that was given by its tokens. -/
  source : List UInt8
  /-- The tokens. -/
  tokens : List Token
  /-- The tree of the grammar. -/
  tree : Node
  /-- The later stages, unless the program was only parsed. -/
  lowered : Option Lowered
deriving Inhabited

namespace Program

/-- The control-flow graph, unless the program was only parsed. -/
def graph? (p : Program) : Option Graph :=
  p.lowered.map Lowered.graph

/-- The variables in order; none when the program was only parsed. -/
def vars (p : Program) : List String :=
  (p.graph?.map Graph.vars).getD []

/-- The listing of the graph; empty when the program was only parsed. -/
def listing (p : Program) : String :=
  (p.graph?.map Graph.listing).getD ""

/-- The listing of the static single assignment form; empty when there is none. -/
def ssaListing (p : Program) : String :=
  match p.graph?.map Graph.toSsa with
  | some (.ok f) => f.listing
  | _ => ""

/-- The drawing of a stage of a lowered program. -/
def drawLowered (p : Program) (later : Lowered) (stage : String) : Except StageError Drawing :=
  match Stage.ofName? stage with
  | some .parse => .ok p.tree.drawing
  | some .ast => .ok later.ast.drawing
  | some .cfg => .ok later.graph.drawing
  | some .cfgDot => .ok later.graph.drawing
  | some .ssa => (later.graph.toSsa.mapError .noSsa).map SsaFunction.drawing
  | some .ssaDot => (later.graph.toSsa.mapError .noSsa).map SsaFunction.drawing
  | _ => .error (.unknownStage stage)

/-- The drawing of a stage, given by name. -/
def draw (p : Program) (stage : String) : Except StageError Drawing :=
  match p.lowered with
  | some later => p.drawLowered later stage
  | none => if stage = Stage.parse.name then .ok p.tree.drawing else .error (.onlyParsed stage)

/-- The text of the drawing of a stage; empty when it cannot be shown. -/
def drawingText (p : Program) (stage : Stage) : String :=
  match p.draw stage.name with
  | .ok d => d.text
  | .error _ => ""

end Program

end BlockFlow
