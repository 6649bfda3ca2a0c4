import BlockFlow.Graph.Basic
import BlockFlow.Drawing

/-!
# Graphs as text

A graph has a listing, one section per block with its predecessors and its operations, and a
drawing, one rectangle per block and one edge per branch.
-/

namespace BlockFlow

namespace Store

/-- A store as listings write it. -/
def text (s : Store) : String :=
  "store " ++ s.name ++ " ← " ++ s.value.text

end Store

namespace Graph

/-- A terminator as listings write it. -/
def terminatorText (g : Graph) : Terminator → String
  | .jump target => "br " ++ g.blockName target
  | .branch cond onTrue onFalse =>
    "br " ++ cond.text ++ " > 0, " ++ g.blockName onTrue ++ ", " ++ g.blockName onFalse
  | .ret value => "ret " ++ value.text
  | .other name => name

/-- The operations of a block: room for the variables in the entry, then the stores, then the
terminator. -/
def lines (g : Graph) (b : Block) : List String :=
  (if b.id = 0 then g.vars.map ("alloca " ++ ·) else [])
    ++ b.stores.map Store.text
    ++ b.term.toList.map g.terminatorText

/-- The section of a block in the listing. -/
def section_ (g : Graph) (b : Block) : String :=
  let preds :=
    if b.preds.isEmpty then ""
    else "  ; preds: " ++ ", ".intercalate (b.preds.map g.blockName)
  b.name ++ ":" ++ preds ++ "\n" ++ String.join ((g.lines b).map fun line => "  " ++ line ++ "\n")

/-- The listing of a graph: the sections of its blocks, with a blank line between them. -/
def listing (g : Graph) : String :=
  "\n".intercalate (g.blocks.toList.map g.section_)

/-- The drawing of a graph. -/
def drawing (g : Graph) : Drawing :=
  Drawing.rectangleHeader
    :: g.blocks.toList.map (fun b => Drawing.rectangle b.id ((b.name ++ ":") :: g.lines b))
    ++ g.edges.map (fun (source, target) => Drawing.edge source target)
    ++ [Drawing.footer]

end Graph

end BlockFlow
