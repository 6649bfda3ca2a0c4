import BlockFlow.Proofs.Dominance.Tree
import BlockFlow.Proofs.Ssa.Versions

/-!
# Renaming labels the dominator tree

The walk of `Ssa.rename` writes on behalf of one block at a time: the versions that the phis and the
instructions of the block define and read, and in the phis of its successors the operands that come
from it.  What is written on behalf of one block (`Ssa.Untouched`) is not changed on behalf of
another, because two predecessors of a block never share an operand.

A tree of blocks is labelled (`Ssa.Labelled`), given what is visible above it, when its root reads
and passes on what is visible there, and the trees below are labelled given what the root adds to
it.  Walking down from a block labels its tree, leaves alone what was written on behalf of all other
blocks, and forgets what the tree defined (`Ssa.exists_descend`).  Since the trees below a block
have nothing in common, labelling one of them leaves the others labelled.
-/

namespace BlockFlow

/-- The versions that a block defines, in order. -/
def SsaBlock.definitions (b : SsaBlock) : List Version :=
  Ssa.targets (b.phis ++ b.instrs)

/-- The operands that the phis of a block have for a predecessor. -/
def SsaBlock.operands (b : SsaBlock) (source : Nat) : List (Option Version) :=
  b.phis.map fun phi => (b.preds.idxOf? source).bind fun j => phi.uses[j]?

namespace Ssa

open Dominance

theorem getElem?_of_idxOf? {places : List Nat} {i j : Nat} (h : places.idxOf? i = some j) :
    places[j]? = some i := by
  obtain ⟨hlt, heq, _⟩ := List.idxOf?_eq_some_iff.mp h
  rw [List.getElem?_eq_getElem hlt, heq]

/-! ### What is written on behalf of a block -/

/-- What the phis and instructions of a block define and read, operands of phis apart. -/
def codeAt (blocks : Array SsaBlock) (i : Nat) : Option (List (Option Version) × List Instr) :=
  blocks[i]?.map fun b => (b.phis.map Instr.target, b.instrs)

/-- What the phis of one block have been told by another. -/
def told (blocks : Array SsaBlock) (source target : Nat) : List (Option Version) :=
  (blocks[target]?.map fun b => b.operands source).getD []

/-- Everything that is written on behalf of a block is the same. -/
structure Untouched (blocks blocks' : Array SsaBlock) (i : Nat) : Prop where
  code : codeAt blocks' i = codeAt blocks i
  told : ∀ t, told blocks' i t = told blocks i t

/-- The blocks differ in the numbers of versions only. -/
def SameShape (blocks blocks' : Array SsaBlock) : Prop :=
  ∀ i : Nat, blocks'[i]?.map SsaBlock.erase = blocks[i]?.map SsaBlock.erase

variable {blocks blocks' blocks'' : Array SsaBlock} {b b' : SsaBlock} {i k t : Nat}

theorem Untouched.refl (blocks : Array SsaBlock) (i : Nat) : Untouched blocks blocks i :=
  ⟨rfl, fun _ => rfl⟩

theorem Untouched.trans (h : Untouched blocks blocks' i) (h' : Untouched blocks' blocks'' i) :
    Untouched blocks blocks'' i :=
  ⟨h'.code.trans h.code, fun t => (h'.told t).trans (h.told t)⟩

theorem SameShape.refl (blocks : Array SsaBlock) : SameShape blocks blocks :=
  fun _ => rfl

theorem SameShape.trans (h : SameShape blocks blocks') (h' : SameShape blocks' blocks'') :
    SameShape blocks blocks'' :=
  fun i => (h' i).trans (h i)

theorem SameShape.exists_get (h : SameShape blocks blocks') (hb : blocks[i]? = some b) :
    ∃ b', blocks'[i]? = some b' ∧ b'.erase = b.erase := by
  have hmap := h i
  rw [hb] at hmap
  exact Option.map_eq_some_iff.mp hmap

theorem SameShape.symm (h : SameShape blocks blocks') : SameShape blocks' blocks :=
  fun i => (h i).symm

theorem targets_eq_of_map {phis phis' : List Instr}
    (h : phis'.map Instr.target = phis.map Instr.target) : targets phis' = targets phis := by
  have heq := congrArg (List.filterMap id) h
  rwa [List.filterMap_map, List.filterMap_map] at heq

theorem definitions_eq (b : SsaBlock) : b.definitions = targets b.phis ++ targets b.instrs :=
  targets_append b.phis b.instrs

theorem names_definitions_of_erase (h : b'.erase = b.erase) :
    b'.definitions.map Version.name = b.definitions.map Version.name := by
  rw [definitions_eq, definitions_eq, List.map_append, List.map_append,
    names_targets_of_erase (SsaBlock.phis_erase_of_erase h),
    names_targets_of_erase (SsaBlock.instrs_erase_of_erase h)]

theorem operands_eq (b : SsaBlock) (source : Nat) : b.operands source =
    (b.phis.map Instr.uses).map fun uses => (b.preds.idxOf? source).bind fun j => uses[j]? := by
  rw [List.map_map]
  rfl

/-! ### Replacing a block -/

theorem getElem?_replace (hb : blocks[t]? = some b) (b' : SsaBlock) (i : Nat) :
    (blocks.setIfInBounds t b')[i]? = if t = i then some b' else blocks[i]? := by
  obtain ⟨hlt, _⟩ := Array.getElem?_eq_some_iff.mp hb
  rw [Array.getElem?_setIfInBounds]
  by_cases hti : t = i
  · rw [if_pos hti, if_pos hti, if_pos hlt]
  · rw [if_neg hti, if_neg hti]

theorem sameShape_replace (hb : blocks[t]? = some b) (h : b'.erase = b.erase) :
    SameShape blocks (blocks.setIfInBounds t b') := by
  intro i
  rw [getElem?_replace hb]
  by_cases hti : t = i
  · rw [if_pos hti, ← hti, hb, Option.map_some, Option.map_some, h]
  · rw [if_neg hti]

theorem codeAt_replace (hb : blocks[t]? = some b)
    (h : i ≠ t ∨ b'.phis.map Instr.target = b.phis.map Instr.target ∧ b'.instrs = b.instrs) :
    codeAt (blocks.setIfInBounds t b') i = codeAt blocks i := by
  unfold codeAt
  rw [getElem?_replace hb]
  by_cases hti : t = i
  · rcases h with hne | ⟨htargets, hinstrs⟩
    · exact absurd hti.symm hne
    · rw [if_pos hti, ← hti, hb, Option.map_some, Option.map_some, htargets, hinstrs]
  · rw [if_neg hti]

theorem told_replace (hb : blocks[t]? = some b) {s : Nat}
    (h : s ≠ t ∨ b'.operands i = b.operands i) :
    told (blocks.setIfInBounds t b') i s = told blocks i s := by
  unfold told
  rw [getElem?_replace hb]
  by_cases hts : t = s
  · rcases h with hne | hoperands
    · exact absurd hts.symm hne
    · rw [if_pos hts, ← hts, hb, Option.map_some, Option.map_some, hoperands]
  · rw [if_neg hts]

/-! ### Telling a successor -/

/-- All operands that one block has told another are current. -/
def TellsCurrent (visible : List Version) (blocks : Array SsaBlock) (source target : Nat) : Prop :=
  ∀ use, some use ∈ told blocks source target → Current visible use

/-- A walk went on by telling successors of one block. -/
structure Informed (source : Nat) (w w' : Walk) : Prop where
  definitions : w'.definitions = w.definitions
  shape : SameShape w.blocks w'.blocks
  code : ∀ i, codeAt w'.blocks i = codeAt w.blocks i
  told : ∀ i, i ≠ source → ∀ t, told w'.blocks i t = told w.blocks i t
  current : ∀ t, TellsCurrent w.definitions.visible w.blocks source t →
    TellsCurrent w.definitions.visible w'.blocks source t

theorem Informed.refl (source : Nat) (w : Walk) : Informed source w w :=
  ⟨rfl, .refl _, fun _ => rfl, fun _ _ _ => rfl, fun _ h => h⟩

theorem Informed.trans {source : Nat} {w w' w'' : Walk} (h : Informed source w w')
    (h' : Informed source w' w'') : Informed source w w'' where
  definitions := h'.definitions.trans h.definitions
  shape := h.shape.trans h'.shape
  code := fun i => (h'.code i).trans (h.code i)
  told := fun i hi t => (h'.told i hi t).trans (h.told i hi t)
  current := by
    intro t htells
    have hnext := h'.current t
    rw [h.definitions] at hnext
    exact hnext (h.current t htells)

/-- The phis of a block after one of its operands was resolved. -/
def toldPhis (d : Definitions) (j : Nat) (phis : List Instr) : List Instr :=
  phis.map fun phi => { phi with uses := phi.uses.modify j d.resolve }

theorem map_erase_toldPhis (d : Definitions) (j : Nat) (phis : List Instr) :
    (toldPhis d j phis).map Instr.erase = phis.map Instr.erase := by
  rw [toldPhis, List.map_map]
  refine List.map_congr_left fun phi _ => ?_
  have huses : (phi.uses.modify j d.resolve).map Version.erase = phi.uses.map Version.erase := by
    refine List.ext_getElem? fun m => ?_
    rw [List.getElem?_map, List.getElem?_map, List.getElem?_modify]
    cases phi.uses[m]? with
    | none => rfl
    | some use =>
      by_cases hjm : j = m
      · simp only [hjm, if_true, Option.map_eq_map, Option.map_some, d.erase_resolve]
      · simp only [hjm, if_false, Option.map_eq_map, Option.map_some]
  simp only [Function.comp, Instr.erase, huses]

theorem exists_inform {source : Nat} (w : Walk) (hb : w.blocks[t]? = some b)
    (hmem : source ∈ b.preds) : ∃ w', w.inform source t = .ok w' ∧ Informed source w w' ∧
      TellsCurrent w.definitions.visible w'.blocks source t := by
  unfold Walk.inform
  simp only [hb]
  cases hempty : b.phis.isEmpty with
  | true =>
    refine ⟨w, rfl, .refl source w, ?_⟩
    intro use huse
    rw [told, hb, Option.map_some, Option.getD_some, SsaBlock.operands,
      List.isEmpty_iff.mp hempty] at huse
    cases huse
  | false =>
    obtain ⟨j, hj⟩ : ∃ j, b.preds.idxOf? source = some j :=
      Option.isSome_iff_exists.mp (List.isSome_idxOf?.mpr hmem)
    simp only [hj]
    let b' : SsaBlock := { b with phis := toldPhis w.definitions j b.phis }
    have herase : b'.erase = b.erase := by
      simp only [b', SsaBlock.erase, map_erase_toldPhis]
    have htold : TellsCurrent w.definitions.visible (w.blocks.setIfInBounds t b') source t := by
      intro use huse
      rw [told, getElem?_replace hb, if_pos rfl, Option.map_some, Option.getD_some,
        SsaBlock.operands] at huse
      obtain ⟨phi, hphi, huse⟩ := List.mem_map.mp huse
      obtain ⟨phi', _, rfl⟩ := List.mem_map.mp hphi
      simp only [b', hj, Option.bind_some, List.getElem?_modify, if_pos] at huse
      obtain ⟨use', _, rfl⟩ := Option.map_eq_some_iff.mp huse
      exact w.definitions.current_resolve use'
    refine ⟨{ w with blocks := w.blocks.setIfInBounds t b' }, rfl,
      ⟨rfl, sameShape_replace hb herase, fun i => codeAt_replace hb (.inr ⟨?_, rfl⟩), ?_, ?_⟩,
      htold⟩
    · simp only [b', toldPhis, List.map_map]
      rfl
    · -- Another predecessor has another place among the predecessors, and so another operand.
      intro i hi s
      refine told_replace hb (.inr ?_)
      simp only [b', SsaBlock.operands, toldPhis, List.map_map]
      refine List.map_congr_left fun phi _ => ?_
      cases hm : b.preds.idxOf? i with
      | none => rfl
      | some m =>
        have hjm : j ≠ m := by
          rintro rfl
          exact hi (Option.some.inj ((getElem?_of_idxOf? hm).symm.trans (getElem?_of_idxOf? hj)))
        simp only [Function.comp, Option.bind_some, List.getElem?_modify, if_neg hjm]
        exact congrFun Option.map_id _
    · intro s hs
      by_cases hst : s = t
      · exact hst ▸ htold
      · rw [TellsCurrent, told_replace hb (.inl hst)]
        exact hs

/-- Telling several successors, each of which lists the block as a predecessor. -/
theorem exists_foldlM_inform (source : Nat) (succs : List Nat) (w : Walk)
    (hlisted : ∀ s ∈ succs, ∃ b, w.blocks[s]? = some b ∧ source ∈ b.preds) :
    ∃ w', succs.foldlM (Walk.inform source) w = .ok w' ∧ Informed source w w' ∧
      ∀ s ∈ succs, TellsCurrent w.definitions.visible w'.blocks source s := by
  induction succs generalizing w with
  | nil => exact ⟨w, rfl, .refl source w, fun s hs => by cases hs⟩
  | cons s rest ih =>
    obtain ⟨b, hb, hmem⟩ := hlisted s List.mem_cons_self
    obtain ⟨w₁, hinform, hinformed, htells⟩ := exists_inform w hb hmem
    have hlisted₁ : ∀ s ∈ rest, ∃ b, w₁.blocks[s]? = some b ∧ source ∈ b.preds := by
      intro s' hs'
      obtain ⟨b, hb, hmem⟩ := hlisted s' (List.mem_cons_of_mem s hs')
      obtain ⟨b', hb', herase⟩ := hinformed.shape.exists_get hb
      exact ⟨b', hb', SsaBlock.preds_eq_of_erase herase ▸ hmem⟩
    obtain ⟨w₂, hfold, hinformed₂, htells₂⟩ := ih w₁ hlisted₁
    refine ⟨w₂, ?_, hinformed.trans hinformed₂, fun s' hs' => ?_⟩
    · rw [List.foldlM_cons, hinform]
      exact hfold
    · have hvisible : w₁.definitions = w.definitions := hinformed.definitions
      rw [hvisible] at htells₂
      rcases List.mem_cons.mp hs' with rfl | hs'
      · have hcurrent := hinformed₂.current s'
        rw [hvisible] at hcurrent
        exact hcurrent htells
      · exact htells₂ s' hs'

/-! ### Entering a block -/

/-- A block reads what is visible where it reads it, and passes on what is visible at its end. -/
structure Consistent (blocks : Array SsaBlock) (i : Nat) (visible : List Version) (b : SsaBlock) :
    Prop where
  block : blocks[i]? = some b
  reads : Reads ((targets b.phis).reverse ++ visible) b.instrs
  tells : ∀ s ∈ b.succs, TellsCurrent (b.definitions.reverse ++ visible) blocks i s

theorem exists_enter (w : Walk) (hb : w.blocks[i]? = some b)
    (hlisted : ∀ s ∈ b.succs, ∃ b', w.blocks[s]? = some b' ∧ i ∈ b'.preds) :
    ∃ w' b', w.enter i b = .ok w' ∧ SameShape w.blocks w'.blocks ∧
      (∀ k, k ≠ i → Untouched w.blocks w'.blocks k) ∧
      Consistent w'.blocks i w.definitions.visible b' ∧ b'.erase = b.erase ∧
      w'.definitions.visible = b'.definitions.reverse ++ w.definitions.visible := by
  let d := (w.definitions.renamePhis b.phis).2
  let d' := (d.renameInstrs b.instrs).2
  let b₁ : SsaBlock :=
    { b with
      phis := (w.definitions.renamePhis b.phis).1
      instrs := (d.renameInstrs b.instrs).1 }
  obtain ⟨herase, huses, hvisible⟩ := w.definitions.renamePhis_spec b.phis
  obtain ⟨herase', hreads, hvisible'⟩ := d.renameInstrs_spec b.instrs
  have herase₁ : b₁.erase = b.erase := by
    simp only [b₁, d, SsaBlock.erase, herase, herase']
  have hshape₁ : SameShape w.blocks (w.blocks.setIfInBounds i b₁) := sameShape_replace hb herase₁
  have htold₁ : ∀ k t, told (w.blocks.setIfInBounds i b₁) k t = told w.blocks k t := by
    intro k t
    refine told_replace hb (.inr ?_)
    rw [operands_eq, operands_eq, huses]
  have hdefinitions : b₁.definitions.reverse ++ w.definitions.visible = d'.visible := by
    rw [hvisible', hvisible, definitions_eq, List.reverse_append, List.append_assoc]
  obtain ⟨w', hfold, hinformed, htells⟩ := exists_foldlM_inform i b.succs
    ⟨w.blocks.setIfInBounds i b₁, d'⟩ (by
      intro s hs
      obtain ⟨b', hb', hmem⟩ := hlisted s hs
      obtain ⟨b₂, hb₂, herase₂⟩ := hshape₁.exists_get hb'
      exact ⟨b₂, hb₂, SsaBlock.preds_eq_of_erase herase₂ ▸ hmem⟩)
  -- Telling successors leaves the phis' targets and the instructions of the block itself alone.
  have hb₁ : (w.blocks.setIfInBounds i b₁)[i]? = some b₁ := by
    rw [getElem?_replace hb, if_pos rfl]
  obtain ⟨b', hb', herase₂⟩ := hinformed.shape.exists_get hb₁
  have hcode := hinformed.code i
  rw [codeAt, codeAt, hb', hb₁] at hcode
  obtain ⟨htargets, hinstrs⟩ := Prod.mk.inj (Option.some.inj hcode)
  have hdefinitions' : b'.definitions = b₁.definitions := by
    rw [definitions_eq, definitions_eq, targets_eq_of_map htargets, hinstrs]
  refine ⟨w', b', hfold, hshape₁.trans hinformed.shape, fun k hk => ?_, ⟨hb', ?_, ?_⟩,
    herase₂.trans herase₁, ?_⟩
  · exact ⟨(hinformed.code k).trans (codeAt_replace hb (.inl hk)),
      fun t => (hinformed.told k hk t).trans (htold₁ k t)⟩
  · rw [hinstrs, targets_eq_of_map htargets, ← hvisible]
    exact hreads
  · intro s hs
    rw [hdefinitions', hdefinitions]
    exact htells s (SsaBlock.succs_eq_of_erase herase₂ ▸ hs)
  · rw [hinformed.definitions, hdefinitions', hdefinitions]

/-! ### Labelled trees -/

/-- The tree below a block is labelled, given what is visible above it. -/
inductive Labelled (blocks : Array SsaBlock) : Nat → List Version → Prop where
  | node {i : Nat} {visible : List Version} {b : SsaBlock} (h : Consistent blocks i visible b)
      (hchildren : ∀ c ∈ b.children, Labelled blocks c (b.definitions.reverse ++ visible)) :
      Labelled blocks i visible

/-- A block stays consistent as long as nothing is written on its behalf. -/
theorem Consistent.congr {visible : List Version} (h : Consistent blocks i visible b)
    (hshape : SameShape blocks blocks') (huntouched : Untouched blocks blocks' i) :
    ∃ b', Consistent blocks' i visible b' ∧ b'.definitions = b.definitions ∧
      b'.children = b.children := by
  obtain ⟨b', hb', herase⟩ := hshape.exists_get h.block
  have hcode := huntouched.code
  rw [codeAt, codeAt, hb', h.block] at hcode
  obtain ⟨htargets, hinstrs⟩ := Prod.mk.inj (Option.some.inj hcode)
  have hdefinitions : b'.definitions = b.definitions := by
    rw [definitions_eq, definitions_eq, targets_eq_of_map htargets, hinstrs]
  refine ⟨b', ⟨hb', ?_, ?_⟩, hdefinitions, SsaBlock.children_eq_of_erase herase⟩
  · rw [hinstrs, targets_eq_of_map htargets]
    exact h.reads
  · intro s hs
    rw [hdefinitions, TellsCurrent, huntouched.told]
    exact h.tells s (SsaBlock.succs_eq_of_erase herase ▸ hs)

/-! ### Walking the tree -/

/-- The predecessors of each block. -/
def predTable (blocks : Array SsaBlock) : Table :=
  blocks.map SsaBlock.preds

/-- Blocks that know their dominator tree, and whose successors list them. -/
structure Linked (blocks : Array SsaBlock) : Prop where
  connected : Connected (predTable blocks)
  children_eq : ∀ {i : Nat} {b : SsaBlock}, blocks[i]? = some b →
    b.children = (tree (predTable blocks)).childrenOf i
  listed : ∀ {i : Nat} {b : SsaBlock}, blocks[i]? = some b → ∀ s ∈ b.succs,
    ∃ b', blocks[s]? = some b' ∧ i ∈ b'.preds

theorem size_predTable (blocks : Array SsaBlock) : (predTable blocks).size = blocks.size :=
  Array.size_map

theorem of_predTable (hb : blocks[i]? = some b) : (predTable blocks).of i = b.preds := by
  rw [predTable, Table.of, Array.getElem?_map, hb]
  rfl

theorem SameShape.predTable_eq (h : SameShape blocks blocks') :
    predTable blocks' = predTable blocks := by
  refine Array.ext_getElem? fun i => ?_
  have hpreds := congrArg (Option.map SsaBlock.preds) (h i)
  rw [Option.map_map, Option.map_map] at hpreds
  rw [predTable, predTable, Array.getElem?_map, Array.getElem?_map]
  exact hpreds

/-- What links blocks does not depend on the numbers of versions. -/
theorem Linked.congr (h : Linked blocks) (hshape : SameShape blocks blocks') : Linked blocks' where
  connected := hshape.predTable_eq ▸ h.connected
  children_eq := by
    intro i b' hb'
    obtain ⟨b, hb, herase⟩ := hshape.symm.exists_get hb'
    rw [hshape.predTable_eq, ← h.children_eq hb]
    exact (SsaBlock.children_eq_of_erase herase).symm
  listed := by
    intro i b' hb' s hs
    obtain ⟨b, hb, herase⟩ := hshape.symm.exists_get hb'
    obtain ⟨c, hc, hmem⟩ := h.listed hb s (SsaBlock.succs_eq_of_erase herase ▸ hs)
    obtain ⟨c', hc', herase'⟩ := hshape.exists_get hc
    exact ⟨c', hc', SsaBlock.preds_eq_of_erase herase' ▸ hmem⟩

theorem Linked.mem_children (h : Linked blocks) (hb : blocks[i]? = some b) {c : Nat} :
    c ∈ b.children ↔ (tree (predTable blocks)).of c = some i := by
  rw [h.children_eq hb]
  exact mem_childrenOf

/-- The children of a block are blocks, and it is their immediate dominator. -/
theorem Linked.of_mem_children (h : Linked blocks) (hb : blocks[i]? = some b) {c : Nat}
    (hc : c ∈ b.children) : c < blocks.size ∧ IsIdom (predTable blocks) i c := by
  have hlink := (h.mem_children hb).mp hc
  rw [← size_predTable]
  exact ⟨lt_of_of_tree hlink, (isIdom_of_of_tree h.connected hlink).2⟩

/-- A labelled tree stays labelled as long as nothing is written on behalf of a block in it. -/
theorem Labelled.congr {visible : List Version} (hlinked : Linked blocks)
    (hshape : SameShape blocks blocks') (h : Labelled blocks i visible) (hi : i < blocks.size)
    (huntouched : ∀ k < blocks.size, Dominates (predTable blocks) i k →
      Untouched blocks blocks' k) : Labelled blocks' i visible := by
  induction h with
  | @node i visible b hconsistent _ ih =>
    obtain ⟨b', hconsistent', hdefinitions, hchildren⟩ :=
      hconsistent.congr hshape (huntouched i hi (.refl _ i))
    refine .node hconsistent' fun c hc => ?_
    rw [hchildren] at hc
    rw [hdefinitions]
    obtain ⟨hclt, hidom⟩ := hlinked.of_mem_children hconsistent.block hc
    exact ih c hc hclt fun k hk hdom => huntouched k hk (hidom.dominates.trans hdom)

/-- A walk has been down the tree below a block and is back. -/
structure Descended (i : Nat) (w w' : Walk) : Prop where
  shape : SameShape w.blocks w'.blocks
  visible : w'.definitions.visible = w.definitions.visible
  untouched : ∀ k < w.blocks.size, ¬ Dominates (predTable w.blocks) i k →
    Untouched w.blocks w'.blocks k
  labelled : Labelled w'.blocks i w.definitions.visible

theorem SameShape.size_eq (h : SameShape blocks blocks') : blocks'.size = blocks.size := by
  rw [← size_predTable, h.predTable_eq, size_predTable]

/-- Every child lies deeper than the block, so that a bound which reaches below the deepest block
there can be still does so from the child when it has been lowered by one. -/
theorem Linked.child (h : Linked blocks) (hshape : SameShape blocks blocks')
    (hb : blocks[i]? = some b) {c fuel : Nat} (hc : c ∈ b.children)
    (hfuel : blocks.size < fuel + 1 + depth (predTable blocks) i) :
    Linked blocks' ∧ c < blocks'.size ∧ blocks'.size < fuel + depth (predTable blocks') c := by
  obtain ⟨hclt, hidom⟩ := h.of_mem_children hb hc
  have hdeeper := depth_lt_depth h.connected ((size_predTable _).symm ▸ hclt) hidom.dominates
    hidom.ne
  rw [hshape.size_eq, hshape.predTable_eq]
  exact ⟨h.congr hshape, hclt, by omega⟩

/-- Walking down the trees below a block, one after the other. -/
theorem exists_foldlM_descend (fuel : Nat) (children : List Nat) (w : Walk)
    (hlinked : Linked w.blocks) (hnodup : children.Nodup)
    (hchildren : ∀ c ∈ children, (tree (predTable w.blocks)).of c = some i)
    (hstep : ∀ (w₁ : Walk) (c : Nat), c ∈ children → SameShape w.blocks w₁.blocks →
      ∃ w₂, Walk.descend fuel w₁ c = .ok w₂ ∧ Descended c w₁ w₂) :
    ∃ w', children.foldlM (Walk.descend fuel) w = .ok w' ∧ SameShape w.blocks w'.blocks ∧
      w'.definitions.visible = w.definitions.visible ∧
      (∀ k < w.blocks.size, (∀ c ∈ children, ¬ Dominates (predTable w.blocks) c k) →
        Untouched w.blocks w'.blocks k) ∧
      ∀ c ∈ children, Labelled w'.blocks c w.definitions.visible := by
  induction children generalizing w with
  | nil =>
    exact ⟨w, rfl, .refl _, rfl, fun k _ _ => .refl _ k, fun c hc => by cases hc⟩
  | cons c rest ih =>
    obtain ⟨hnot, hnodup⟩ := List.nodup_cons.mp hnodup
    obtain ⟨w₁, hfirst, hdescended⟩ := hstep w c List.mem_cons_self (.refl _)
    have hshape := hdescended.shape
    have hpreds := hshape.predTable_eq
    have hsize := hshape.size_eq
    obtain ⟨w', hrest, hshape', hvisible, huntouched, hlabelled⟩ := ih w₁ (hlinked.congr hshape)
      hnodup (fun d hd => by rw [hpreds]; exact hchildren d (List.mem_cons_of_mem c hd))
      fun w₂ d hd hshape₂ => hstep w₂ d (List.mem_cons_of_mem c hd) (hshape.trans hshape₂)
    rw [hpreds, hsize] at huntouched
    refine ⟨w', ?_, hshape.trans hshape', hvisible.trans hdescended.visible,
      fun k hk hall => ?_, fun d hd => ?_⟩
    · rw [List.foldlM_cons, hfirst]
      exact hrest
    · exact (hdescended.untouched k hk (hall c List.mem_cons_self)).trans
        (huntouched k hk fun d hd => hall d (List.mem_cons_of_mem c hd))
    · rcases List.mem_cons.mp hd with rfl | hd
      · -- The other trees are walked afterwards, and touch nothing in this one.
        have hlink := hchildren d List.mem_cons_self
        have hdlt : d < w.blocks.size := size_predTable w.blocks ▸ lt_of_of_tree hlink
        refine hdescended.labelled.congr (hlinked.congr hshape) hshape' (hsize ▸ hdlt) ?_
        intro k hk hdom
        rw [hsize] at hk
        rw [hpreds] at hdom
        refine huntouched k hk fun d' hd' => ?_
        have hne : d ≠ d' := fun heq => hnot (heq ▸ hd')
        exact siblings_disjoint hlinked.connected hlink
          (hchildren d' (List.mem_cons_of_mem d hd')) hne (by rwa [size_predTable]) hdom
      · rw [← hdescended.visible]
        exact hlabelled d hd

/-- As many definitions are forgotten as a block has made, whatever their numbers. -/
theorem forget_definitions {d : Definitions} {visible : List Version} (herase : b'.erase = b.erase)
    (hvisible : d.visible = b'.definitions.reverse ++ visible) :
    d.forget (definitionCount b.phis + definitionCount b.instrs) = .ok ⟨d.made, visible⟩ := by
  have hcount : definitionCount b.phis + definitionCount b.instrs =
      b'.definitions.reverse.length := by
    rw [List.length_reverse, definitions_eq, List.length_append, definitionCount_eq,
      definitionCount_eq, length_targets_of_erase (SsaBlock.phis_erase_of_erase herase),
      length_targets_of_erase (SsaBlock.instrs_erase_of_erase herase)]
  have hle : b'.definitions.reverse.length ≤ (b'.definitions.reverse ++ visible).length := by
    rw [List.length_append]
    omega
  rw [Definitions.forget, hcount, hvisible, if_pos hle, List.drop_left]

/-- A walk enters a block, goes down the trees below it, and forgets. -/
theorem descend_eq_ok {fuel : Nat} {w w₁ w₂ : Walk} {d : Definitions} (hb : w.blocks[i]? = some b)
    (henter : w.enter i b = .ok w₁) (hfold : b.children.foldlM (Walk.descend fuel) w₁ = .ok w₂)
    (hforget : w₂.definitions.forget (definitionCount b.phis + definitionCount b.instrs) = .ok d) :
    w.descend (fuel + 1) i = .ok { w₂ with definitions := d } := by
  unfold Walk.descend
  simp only [hb, henter]
  show ((b.children.foldlM (Walk.descend fuel) w₁).bind _) = _
  rw [hfold]
  show ((w₂.definitions.forget _).bind _) = _
  rw [hforget]
  rfl

/-- **Walking down from a block labels its tree.**  The bound suffices if it reaches below the
deepest block there can be. -/
theorem exists_descend (fuel : Nat) (w : Walk) (hlinked : Linked w.blocks) (hi : i < w.blocks.size)
    (hfuel : w.blocks.size < fuel + depth (predTable w.blocks) i) :
    ∃ w', w.descend fuel i = .ok w' ∧ Descended i w w' := by
  have hilt : i < (predTable w.blocks).size := (size_predTable _).symm ▸ hi
  induction fuel generalizing w i with
  | zero =>
    have hle := depth_le_size hlinked.connected hilt
    rw [size_predTable] at hle
    omega
  | succ fuel ih =>
    have hb : w.blocks[i]? = some w.blocks[i] := Array.getElem?_eq_getElem hi
    generalize w.blocks[i] = b at hb
    obtain ⟨w₁, b', henter, hshape, huntouched, hconsistent, herase, hvisible⟩ :=
      exists_enter w hb (hlinked.listed hb)
    have hpreds := hshape.predTable_eq
    have hstep : ∀ (w₃ : Walk) (c : Nat), c ∈ b.children → SameShape w₁.blocks w₃.blocks →
        ∃ w₄, Walk.descend fuel w₃ c = .ok w₄ ∧ Descended c w₃ w₄ := by
      intro w₃ c hc hshape₃
      obtain ⟨hlinked₃, hclt, hfuel₃⟩ := hlinked.child (hshape.trans hshape₃) hb hc hfuel
      exact ih w₃ hlinked₃ hclt hfuel₃ ((size_predTable _).symm ▸ hclt)
    have hnodup : b.children.Nodup := by
      rw [hlinked.children_eq hb]
      exact List.Nodup.filter _ List.nodup_range
    obtain ⟨w₂, hfold, hshape₂, hvisible₂, huntouched₂, hlabelled⟩ :=
      exists_foldlM_descend fuel b.children w₁ (hlinked.congr hshape) hnodup
        (fun c hc => by rw [hpreds]; exact (hlinked.mem_children hb).mp hc) hstep
    rw [hpreds, hshape.size_eq] at huntouched₂
    refine ⟨_, descend_eq_ok hb henter hfold (forget_definitions herase (hvisible₂.trans hvisible)),
      hshape.trans hshape₂, rfl, fun k hk hnot => ?_, ?_⟩
    · have hki : k ≠ i := by
        rintro rfl
        exact hnot (.refl _ k)
      refine (huntouched k hki).trans (huntouched₂ k hk fun c hc hdom => ?_)
      exact hnot ((hlinked.of_mem_children hb hc).2.dominates.trans hdom)
    · -- No child dominates the block, so what was written on entering it still stands.
      have hself : Untouched w₁.blocks w₂.blocks i := by
        refine huntouched₂ i hi fun c hc hdom => ?_
        have hidom := (hlinked.of_mem_children hb hc).2
        exact hidom.ne (hidom.dominates.antisymm hdom (hlinked.connected.reached i hilt))
      obtain ⟨b'', hconsistent₂, hdefinitions, hchildren⟩ := hconsistent.congr hshape₂ hself
      refine .node hconsistent₂ fun c hc => ?_
      rw [hchildren, SsaBlock.children_eq_of_erase herase] at hc
      rw [hdefinitions, ← hvisible]
      exact hlabelled c hc

/-- **Renaming labels the whole tree**, and changes numbers of versions only. -/
theorem exists_rename (hlinked : Linked blocks) (hsize : 0 < blocks.size) :
    ∃ blocks', rename blocks = .ok blocks' ∧ SameShape blocks blocks' ∧ Labelled blocks' 0 [] := by
  have hdepth : 0 < depth (predTable blocks) 0 :=
    List.length_pos_of_mem ((mem_dominators_iff hlinked.connected
      ((size_predTable _).symm ▸ hsize)).mpr (.refl _ 0))
  obtain ⟨w', hdescend, hdescended⟩ :=
    exists_descend blocks.size ⟨blocks, {}⟩ hlinked hsize (by simp only; omega)
  refine ⟨w'.blocks, ?_, hdescended.shape, hdescended.labelled⟩
  rw [rename, hdescend]
  rfl

end Ssa

end BlockFlow
