import BlockFlow.Ssa.Basic
import BlockFlow.Drawing

/-!
# Functions as text

A function has a listing, one section per block with its immediate dominator, and a drawing, one
rectangle per block and one edge per branch.
-/

namespace BlockFlow

namespace Version

/-- A version as listings write it. -/
def text (v : Version) : String :=
  v.name ++ "(" ++ toString v.number ++ ")"

end Version

namespace InstrKind

/-- The name of a kind of instruction. -/
def name : InstrKind → String
  | alloca => "alloca"
  | assign => "f"
  | phi => "phi"
  | cond => "cond"
  | ret => "ret"

end InstrKind

namespace Instr

/-- An instruction as listings write it. -/
def text (i : Instr) : String :=
  let call := i.kind.name ++ "(" ++ ",".intercalate (i.uses.map Version.text) ++ ")"
  match i.target with
  | some version => version.text ++ " = " ++ call
  | none => call

end Instr

namespace SsaBlock

/-- The phis and instructions of a block. -/
def lines (b : SsaBlock) : List String :=
  (b.phis ++ b.instrs).map Instr.text

end SsaBlock

namespace SsaFunction

/-- The section of a block in the listing. -/
def section_ (f : SsaFunction) (b : SsaBlock) : String :=
  let idom := match b.idom with
    | some i => "  ; idom: " ++ f.blockName i
    | none => ""
  b.name ++ ":" ++ idom ++ "\n" ++ String.join (b.lines.map fun line => "  " ++ line ++ "\n")

/-- The listing of a function: the sections of its blocks, with a blank line between them. -/
def listing (f : SsaFunction) : String :=
  "\n".intercalate (f.blocks.toList.map f.section_)

/-- The branches of a function, by the numbers that their ends have in the graph. -/
def edges (f : SsaFunction) : List (Nat × Nat) :=
  f.blocks.toList.flatMap fun b =>
    b.succs.filterMap fun s => f.blocks[s]?.map fun target => (b.id, target.id)

/-- The drawing of a function. -/
def drawing (f : SsaFunction) : Drawing :=
  Drawing.rectangleHeader
    :: f.blocks.toList.map (fun b => Drawing.rectangle b.id ((b.name ++ ":") :: b.lines))
    ++ f.edges.map (fun (source, target) => Drawing.edge source target)
    ++ [Drawing.footer]

end SsaFunction

end BlockFlow
