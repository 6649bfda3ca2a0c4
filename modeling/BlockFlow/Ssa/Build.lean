import BlockFlow.Graph.Basic
import BlockFlow.Ssa.Dominance
import BlockFlow.Ssa.Renaming

/-!
# From graphs to static single assignment form

The blocks of a graph that can be reached are taken over in the order of the graph.  Then dominance
is worked out, phis are placed on the iterated dominance frontier of the blocks that define a
variable, and versions are given out.
-/

namespace BlockFlow

namespace Ssa

/-! ### Blocks that can be reached -/

/-- The numbers of the blocks that can be reached, in the order of the graph.  The place of a block
in the function is its place in this list. -/
def livePlaces (g : Graph) : List Nat :=
  let reachable := g.reachable
  (List.range g.blocks.size).filter fun i => reachable.contains i

/-- The versions that an expression reads. -/
def usesOf (e : Expr) : List Version :=
  e.loads.map fun name => ⟨name, 0⟩

/-- The instruction of a store. -/
def storeInstr (s : Store) : Instr :=
  ⟨.assign, some ⟨s.name, 0⟩, usesOf s.value⟩

/-- The instruction of a terminator, if it reads anything. -/
def terminatorInstrs : Option Terminator → List Instr
  | some (.branch cond _ _) => [⟨.cond, none, usesOf cond⟩]
  | some (.ret value) => [⟨.ret, none, usesOf value⟩]
  | _ => []

/-- The instructions of a block. -/
def instrsOf (vars : List String) (b : Block) : List Instr :=
  (if b.id = 0 then vars.map fun name => ⟨.alloca, some ⟨name, 0⟩, []⟩ else [])
    ++ b.stores.map storeInstr
    ++ terminatorInstrs b.term

/-- A block of the graph as a block of the function, given the places of the blocks that can be
reached. -/
def takeOver (vars : List String) (places : List Nat) (b : Block) : SsaBlock where
  id := b.id
  name := b.name
  preds := b.preds.filterMap fun p => places.idxOf? p
  succs := b.successors.filterMap fun s => places.idxOf? s
  instrs := instrsOf vars b

/-! ### Dominance -/

/-- Puts what is known of dominance into the blocks. -/
def withDominance (blocks : Array SsaBlock) : Array SsaBlock :=
  let preds : Dominance.Table := blocks.map SsaBlock.preds
  let doms := Dominance.dominators preds
  let links := Dominance.idoms doms
  let fronts := Dominance.frontiers preds links
  blocks.mapIdx fun i block =>
    { block with
      dominators := doms.of i
      idom := links.of i
      children := links.childrenOf i
      frontier := fronts.of i }

/-! ### Phis -/

/-- Whether the block has an instruction that defines the variable. -/
def defines (name : String) (block : SsaBlock) : Bool :=
  block.instrs.any fun instr => (instr.target.map Version.name) == some name

/-- The places of the blocks that define a variable. -/
def definingPlaces (name : String) (blocks : Array SsaBlock) : List Nat :=
  (List.range blocks.size).filter fun i =>
    match blocks[i]? with
    | some block => defines name block
    | none => false

/-- The blocks that get a phi for each variable. -/
def phiPlaces (vars : List String) (blocks : Array SsaBlock) : List (String × List Nat) :=
  let fronts : Dominance.Table := blocks.map SsaBlock.frontier
  vars.map fun name => (name, Dominance.iteratedFrontier fronts (definingPlaces name blocks))

/-- A phi for a variable with one operand for each predecessor. -/
def phiOf (name : String) (operands : Nat) : Instr :=
  ⟨.phi, some ⟨name, 0⟩, List.replicate operands ⟨name, 0⟩⟩

/-- Puts the phis into the blocks, in the order of the variables. -/
def withPhis (vars : List String) (blocks : Array SsaBlock) : Array SsaBlock :=
  let places := phiPlaces vars blocks
  blocks.mapIdx fun i block =>
    let names := (places.filter fun entry => entry.2.contains i).map Prod.fst
    { block with phis := names.map fun name => phiOf name block.preds.length }

end Ssa

namespace Graph

/-- The blocks of a graph that can be reached, before any version is numbered. -/
def liveBlocks (g : Graph) : Array SsaBlock :=
  let places := Ssa.livePlaces g
  (places.filterMap fun i => g.blocks[i]?.map (Ssa.takeOver g.vars places)).toArray

/-- The static single assignment form of a graph. -/
def toSsa (g : Graph) : Except SsaError SsaFunction :=
  if g.blocks.isEmpty then .error .noEntry
  else do
    let placed := Ssa.withPhis g.vars (Ssa.withDominance g.liveBlocks)
    let blocks ← Ssa.rename placed
    .ok ⟨g.vars, blocks⟩

end Graph

end BlockFlow
