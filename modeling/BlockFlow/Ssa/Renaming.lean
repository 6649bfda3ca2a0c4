import BlockFlow.Ssa.Basic

/-!
# Renaming

Versions are given out by a walk of the dominator tree from the entry.  In each block the phis and
then the instructions define versions, an instruction reading its versions before it defines one;
then the phis of each successor learn which version comes from this block; then the walk goes into
the blocks that this one dominates immediately; and then the definitions of this block are
forgotten.

A definition of a variable gets the number of earlier definitions of it.  What is visible at a point
of the walk is a stack of definitions, of which the topmost one of a variable counts.
-/

namespace BlockFlow

/-- Why a graph cannot be brought into static single assignment form. -/
inductive SsaError where
  /-- The graph has no entry. -/
  | noEntry
  /-- A block with phis does not list a block that branches to it, both given by place, among its
  predecessors. -/
  | unlistedEdge (source target : Nat)
  /-- More definitions were to be forgotten than are visible. -/
  | emptyStack
deriving DecidableEq, Repr, Inhabited

namespace Ssa

/-- The definitions met on a walk. -/
structure Definitions where
  /-- The variables defined so far, once for each definition, the last one first. -/
  made : List String := []
  /-- The versions that are visible, the last one first. -/
  visible : List Version := []
deriving DecidableEq, Repr, Inhabited

namespace Definitions

/-- Defines a new version of a variable. -/
def define (d : Definitions) (name : String) : Version × Definitions :=
  let version : Version := ⟨name, d.made.count name⟩
  (version, ⟨name :: d.made, version :: d.visible⟩)

/-- The visible version of the variable of a use; a use of a variable that has none stays as it
is. -/
def resolve (d : Definitions) (use : Version) : Version :=
  (d.visible.find? fun version => version.name == use.name).getD use

/-- Forgets the last definitions, as many as are given. -/
def forget (d : Definitions) (count : Nat) : Except SsaError Definitions :=
  if count ≤ d.visible.length then .ok ⟨d.made, d.visible.drop count⟩ else .error .emptyStack

/-- Renames the version that an instruction defines, if it defines one. -/
def renameTarget (d : Definitions) (instr : Instr) : Instr × Definitions :=
  match instr.target with
  | some version =>
    let (renamed, d) := d.define version.name
    ({ instr with target := some renamed }, d)
  | none => (instr, d)

/-- Renames the versions that phis define. -/
def renamePhis (d : Definitions) : List Instr → List Instr × Definitions
  | [] => ([], d)
  | phi :: rest =>
    let (renamed, d) := d.renameTarget phi
    let (others, d) := d.renamePhis rest
    (renamed :: others, d)

/-- Renames the versions that instructions read and define, in order. -/
def renameInstrs (d : Definitions) : List Instr → List Instr × Definitions
  | [] => ([], d)
  | instr :: rest =>
    let (renamed, d) := d.renameTarget { instr with uses := instr.uses.map d.resolve }
    let (others, d) := d.renameInstrs rest
    (renamed :: others, d)

end Definitions

/-- How many versions instructions define. -/
def definitionCount (instrs : List Instr) : Nat :=
  instrs.countP fun instr => instr.target.isSome

/-- A walk in progress: the blocks as renamed so far, and the definitions met. -/
structure Walk where
  /-- The blocks. -/
  blocks : Array SsaBlock
  /-- The definitions. -/
  definitions : Definitions := {}
deriving DecidableEq, Repr, Inhabited

namespace Walk

/-- Tells the phis of a successor which versions come from a block. -/
def inform (source : Nat) (w : Walk) (target : Nat) : Except SsaError Walk :=
  match w.blocks[target]? with
  | none => .ok w
  | some block =>
    if block.phis.isEmpty then .ok w
    else match block.preds.idxOf? source with
      | none => .error (.unlistedEdge source target)
      | some j =>
        let phis := block.phis.map fun phi =>
          { phi with uses := phi.uses.modify j w.definitions.resolve }
        .ok { w with blocks := w.blocks.setIfInBounds target { block with phis := phis } }

/-- Renames the phis and instructions of a block, and tells its successors. -/
def enter (w : Walk) (i : Nat) (block : SsaBlock) : Except SsaError Walk :=
  let (phis, d) := w.definitions.renamePhis block.phis
  let (instrs, d) := d.renameInstrs block.instrs
  let blocks := w.blocks.setIfInBounds i { block with phis := phis, instrs := instrs }
  block.succs.foldlM (inform i) ⟨blocks, d⟩

/-- Walks the dominator tree from a block downward, at most `fuel` blocks deep. -/
def descend : (fuel : Nat) → (w : Walk) → (block : Nat) → Except SsaError Walk
  | 0, w, _ => .ok w
  | fuel + 1, w, i =>
    match w.blocks[i]? with
    | none => .ok w
    | some block => do
      let w ← w.enter i block
      let w ← block.children.foldlM (descend fuel) w
      let d ← w.definitions.forget (definitionCount block.phis + definitionCount block.instrs)
      .ok { w with definitions := d }

end Walk

/-- The blocks with all versions renamed.  No way down the dominator tree is longer than the number
of blocks. -/
def rename (blocks : Array SsaBlock) : Except SsaError (Array SsaBlock) := do
  let w ← Walk.descend blocks.size ⟨blocks, {}⟩ 0
  .ok w.blocks

end Ssa

end BlockFlow
