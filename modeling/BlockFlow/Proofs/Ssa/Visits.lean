import BlockFlow.Proofs.Ssa.Renaming

/-!
# The walk, visit by visit

Renaming walks down the dominator tree by recursion.  Written out, the walk is a list of visits: a
block is entered, the blocks below it are visited, and the block is left (`Ssa.visits`).  Carrying
out these visits one after the other is what the recursion does (`Ssa.rename_eq_foldlM`), so that
what one visit keeps, a whole walk keeps.

The list follows from the links of the tree alone.  Every block stands below the entry, and the
trees below two children of a block have nothing in common; so every block is entered once and left
once (`Ssa.perm_visits`).
-/

namespace BlockFlow

namespace Ssa

open Dominance

/-! ### Visits -/

/-- What a walk does at a block: it enters it before it goes to the blocks below, and leaves it
afterwards. -/
inductive Visit where
  | enter (place : Nat)
  | leave (place : Nat)
deriving DecidableEq, Repr

namespace Visit

/-- The block that is visited. -/
def place : Visit → Nat
  | enter k | leave k => k

/-- The block, if it is entered. -/
def entered? : Visit → Option Nat
  | enter k => some k
  | leave _ => none

theorem place_eq_iff {v : Visit} {i : Nat} : v.place = i ↔ v = enter i ∨ v = leave i := by
  cases v <;> simp [place]

end Visit

/-- Carries out a visit.  On leaving a block its definitions are forgotten. -/
def Walk.perform (w : Walk) : Visit → Except SsaError Walk
  | .enter k =>
    match w.blocks[k]? with
    | none => .ok w
    | some b => w.enter k b
  | .leave k =>
    match w.blocks[k]? with
    | none => .ok w
    | some b => do
      let d ← w.definitions.forget (definitionCount b.phis + definitionCount b.instrs)
      .ok { w with definitions := d }

/-- The visits of a walk down from a block, at most `fuel` blocks deep. -/
def visits (blocks : Array SsaBlock) : (fuel : Nat) → (block : Nat) → List Visit
  | 0, _ => []
  | fuel + 1, i =>
    match blocks[i]? with
    | none => []
    | some b => .enter i :: (b.children.flatMap (visits blocks fuel) ++ [.leave i])

variable {blocks blocks' : Array SsaBlock} {b : SsaBlock} {i k t fuel : Nat} {w w' : Walk}

theorem visits_succ (hb : blocks[i]? = some b) : visits blocks (fuel + 1) i =
    .enter i :: (b.children.flatMap (visits blocks fuel) ++ [.leave i]) := by
  rw [visits, hb]

/-- Visits depend on the links between blocks only. -/
theorem SameShape.visits_eq (h : SameShape blocks blocks') (fuel i : Nat) :
    visits blocks' fuel i = visits blocks fuel i := by
  induction fuel generalizing i with
  | zero => rfl
  | succ fuel ih =>
    cases hb : blocks[i]? with
    | none =>
      have hnone := h i
      rw [hb, Option.map_none, Option.map_eq_none_iff] at hnone
      rw [visits, visits, hb, hnone]
    | some b =>
      obtain ⟨b', hb', herase⟩ := h.exists_get hb
      have hbelow : visits blocks' fuel = visits blocks fuel := funext ih
      rw [visits_succ hb, visits_succ hb', SsaBlock.children_eq_of_erase herase, hbelow]

/-! ### What a visit does -/

theorem exists_of_foldlM_cons {α : Type} {f : Walk → α → Except SsaError Walk} {a : α}
    {rest : List α} (h : (a :: rest).foldlM f w = .ok w') :
    ∃ w₁, f w a = .ok w₁ ∧ rest.foldlM f w₁ = .ok w' := by
  rw [List.foldlM_cons] at h
  cases hfirst : f w a with
  | error e =>
    rw [hfirst] at h
    cases h
  | ok w₁ =>
    rw [hfirst] at h
    exact ⟨w₁, rfl, h⟩

theorem informed_of_inform {source : Nat} (h : w.inform source t = .ok w') :
    Informed source w w' := by
  cases hb : w.blocks[t]? with
  | none =>
    simp only [Walk.inform, hb] at h
    cases h
    exact .refl source w
  | some b =>
    by_cases hmem : source ∈ b.preds
    · obtain ⟨w₁, hinform, hinformed, _⟩ := exists_inform w hb hmem
      rw [hinform] at h
      cases h
      exact hinformed
    · -- A block that does not list its predecessor could be told nothing, so it has no phis.
      have hnone : b.preds.idxOf? source = none := List.idxOf?_eq_none_iff.mpr hmem
      simp only [Walk.inform, hb, hnone] at h
      split at h
      · cases h
        exact .refl source w
      · cases h

theorem informed_of_foldlM {source : Nat} (succs : List Nat)
    (h : succs.foldlM (Walk.inform source) w = .ok w') : Informed source w w' := by
  induction succs generalizing w with
  | nil =>
    cases h
    exact .refl source _
  | cons s rest ih =>
    obtain ⟨w₁, hfirst, hrest⟩ := exists_of_foldlM_cons h
    exact (informed_of_inform hfirst).trans (ih hrest)

/-- A walk has entered a block: it has renamed what the block defines and reads, and nothing that
another block does. -/
structure Entered (k : Nat) (b : SsaBlock) (w w' : Walk) : Prop where
  shape : SameShape w.blocks w'.blocks
  other : ∀ i, i ≠ k → codeAt w'.blocks i = codeAt w.blocks i
  code : codeAt w'.blocks k = some ((w.definitions.renamePhis b.phis).1.map Instr.target,
    ((w.definitions.renamePhis b.phis).2.renameInstrs b.instrs).1)
  definitions : w'.definitions = ((w.definitions.renamePhis b.phis).2.renameInstrs b.instrs).2

theorem entered_of_enter (hb : w.blocks[k]? = some b) (h : w.enter k b = .ok w') :
    Entered k b w w' := by
  let d := (w.definitions.renamePhis b.phis).2
  let b₁ : SsaBlock :=
    { b with
      phis := (w.definitions.renamePhis b.phis).1
      instrs := (d.renameInstrs b.instrs).1 }
  have herase : b₁.erase = b.erase := by
    simp only [b₁, SsaBlock.erase, (w.definitions.renamePhis_spec b.phis).1,
      (d.renameInstrs_spec b.instrs).1]
  have hinformed : Informed k ⟨w.blocks.setIfInBounds k b₁, (d.renameInstrs b.instrs).2⟩ w' :=
    informed_of_foldlM b.succs h
  refine ⟨(sameShape_replace hb herase).trans hinformed.shape, fun i hi => ?_, ?_,
    hinformed.definitions⟩
  · exact (hinformed.code i).trans (codeAt_replace hb (.inl hi))
  · rw [hinformed.code k, codeAt, getElem?_replace hb, if_pos rfl]
    rfl

/-- What a visit can do: it enters a block that is there, or else it makes no definition. -/
theorem perform_cases {v : Visit} (h : w.perform v = .ok w') :
    (∃ k b, v = .enter k ∧ w.blocks[k]? = some b ∧ Entered k b w w') ∨
      (∀ k, v.entered? = some k → w.blocks[k]? = none) ∧ w'.blocks = w.blocks ∧
        w'.definitions.made = w.definitions.made := by
  cases v with
  | enter k =>
    cases hb : w.blocks[k]? with
    | none =>
      simp only [Walk.perform, hb] at h
      cases h
      refine .inr ⟨fun k' hk' => ?_, rfl, rfl⟩
      exact Option.some.inj hk' ▸ hb
    | some b =>
      simp only [Walk.perform, hb] at h
      exact .inl ⟨k, b, rfl, hb, entered_of_enter hb h⟩
  | leave k =>
    refine .inr ⟨fun _ hk => (nomatch hk), ?_⟩
    cases hb : w.blocks[k]? with
    | none =>
      simp only [Walk.perform, hb] at h
      cases h
      exact ⟨rfl, rfl⟩
    | some b =>
      simp only [Walk.perform, hb, Definitions.forget] at h
      split at h
      · cases h
        exact ⟨rfl, rfl⟩
      · cases h

theorem sameShape_of_perform {v : Visit} (h : w.perform v = .ok w') :
    SameShape w.blocks w'.blocks := by
  obtain ⟨k, b, _, _, hentered⟩ | ⟨_, hblocks, _⟩ := perform_cases h
  · exact hentered.shape
  · rw [hblocks]
    exact .refl _

theorem sameShape_of_foldlM (list : List Visit) (h : list.foldlM Walk.perform w = .ok w') :
    SameShape w.blocks w'.blocks := by
  induction list generalizing w with
  | nil =>
    cases h
    exact .refl _
  | cons v rest ih =>
    obtain ⟨w₁, hfirst, hrest⟩ := exists_of_foldlM_cons h
    exact (sameShape_of_perform hfirst).trans (ih hrest)

/-! ### The walk is its visits -/

/-- If walking down from a block is carrying out its visits, then so is walking down from several
blocks, one after the other. -/
theorem foldlM_descend (hdescend : ∀ (w : Walk) (i : Nat),
      w.descend fuel i = (visits w.blocks fuel i).foldlM Walk.perform w)
    (children : List Nat) (w : Walk) (hshape : SameShape blocks w.blocks) :
    children.foldlM (Walk.descend fuel) w =
      (children.flatMap (visits blocks fuel)).foldlM Walk.perform w := by
  induction children generalizing w with
  | nil => rfl
  | cons c rest ih =>
    rw [List.foldlM_cons, List.flatMap_cons, List.foldlM_append, hdescend,
      hshape.visits_eq]
    cases hfirst : (visits blocks fuel c).foldlM Walk.perform w with
    | error e => rfl
    | ok w₁ => exact ih w₁ (hshape.trans (sameShape_of_foldlM _ hfirst))

/-- Walking down from a block is carrying out its visits. -/
theorem descend_eq_foldlM (fuel : Nat) (w : Walk) (i : Nat) :
    w.descend fuel i = (visits w.blocks fuel i).foldlM Walk.perform w := by
  induction fuel generalizing w i with
  | zero => rfl
  | succ fuel ih =>
    cases hb : w.blocks[i]? with
    | none =>
      rw [visits, hb, Walk.descend, hb]
      rfl
    | some b =>
      have hperform : w.perform (.enter i) = w.enter i b := by simp only [Walk.perform, hb]
      simp only [visits_succ hb, List.foldlM_cons, hperform, Walk.descend, hb]
      cases henter : w.enter i b with
      | error e => rfl
      | ok w₁ =>
        have hshape : SameShape w.blocks w₁.blocks := (entered_of_enter hb henter).shape
        show (b.children.foldlM (Walk.descend fuel) w₁ >>= _) =
          (b.children.flatMap (visits w.blocks fuel) ++ [Visit.leave i]).foldlM Walk.perform w₁
        rw [List.foldlM_append, foldlM_descend ih b.children w₁ hshape]
        cases hbelow : (b.children.flatMap (visits w.blocks fuel)).foldlM Walk.perform w₁ with
        | error e => rfl
        | ok w₂ =>
          -- The block has been renamed, but it defines as many versions as before.
          obtain ⟨b', hb', herase⟩ := (hshape.trans (sameShape_of_foldlM _ hbelow)).exists_get hb
          have hphis := length_targets_of_erase (SsaBlock.phis_erase_of_erase herase)
          have hinstrs := length_targets_of_erase (SsaBlock.instrs_erase_of_erase herase)
          have hleave : w₂.perform (.leave i) = (do
              let d ← w₂.definitions.forget (definitionCount b.phis + definitionCount b.instrs)
              .ok { w₂ with definitions := d }) := by
            simp only [Walk.perform, hb', definitionCount_eq, hphis, hinstrs]
          exact hleave.symm.trans (bind_pure _).symm

/-- **Renaming is carrying out the visits of the whole tree.** -/
theorem rename_eq_foldlM (blocks : Array SsaBlock) : rename blocks =
    ((visits blocks blocks.size 0).foldlM Walk.perform ⟨blocks, {}⟩).map Walk.blocks := by
  rw [rename, descend_eq_foldlM]
  cases (visits blocks blocks.size 0).foldlM Walk.perform ⟨blocks, {}⟩ <;> rfl

/-! ### Every block once -/

/-- Only what a block dominates is visited on a walk down from it. -/
theorem dominates_of_mem_visits (hlinked : Linked blocks) (hi : i < blocks.size) {v : Visit}
    (h : v ∈ visits blocks fuel i) :
    v.place < blocks.size ∧ Dominates (predTable blocks) i v.place := by
  induction fuel generalizing i with
  | zero => cases h
  | succ fuel ih =>
    have hb : blocks[i]? = some blocks[i] := Array.getElem?_eq_getElem hi
    rw [visits_succ hb, List.mem_cons, List.mem_append, List.mem_singleton] at h
    rcases h with rfl | h | rfl
    · exact ⟨hi, .refl _ i⟩
    · obtain ⟨c, hc, hv⟩ := List.mem_flatMap.mp h
      obtain ⟨hclt, hidom⟩ := hlinked.of_mem_children hb hc
      obtain ⟨hlt, hdom⟩ := ih hclt hv
      exact ⟨hlt, hidom.dominates.trans hdom⟩
    · exact ⟨hi, .refl _ i⟩

/-- What a block dominates is visited on a walk down from it, if the bound reaches below the deepest
block there can be. -/
theorem mem_visits (hlinked : Linked blocks) (hi : i < blocks.size)
    (hfuel : blocks.size < fuel + depth (predTable blocks) i) {v : Visit}
    (hv : v.place < blocks.size) (hdom : Dominates (predTable blocks) i v.place) :
    v ∈ visits blocks fuel i := by
  have hsize := size_predTable blocks
  induction fuel generalizing i with
  | zero =>
    have hle := depth_le_size hlinked.connected (hsize.symm ▸ hi)
    omega
  | succ fuel ih =>
    have hb : blocks[i]? = some blocks[i] := Array.getElem?_eq_getElem hi
    rw [visits_succ hb, List.mem_cons, List.mem_append, List.mem_singleton]
    by_cases hself : v.place = i
    · rcases Visit.place_eq_iff.mp hself with h | h
      · exact .inl h
      · exact .inr (.inr h)
    · obtain ⟨c, hc, hbelow⟩ := exists_child hlinked.connected (hsize.symm ▸ hv) hdom hself
      have hmem := (hlinked.mem_children hb).mpr hc
      obtain ⟨hclt, hidom⟩ := hlinked.of_mem_children hb hmem
      have hdeeper := depth_lt_depth hlinked.connected (hsize.symm ▸ hclt) hidom.dominates hidom.ne
      exact .inr (.inl (List.mem_flatMap.mpr ⟨c, hmem, ih hclt (by omega) hbelow⟩))

/-- No visit is made twice. -/
theorem nodup_visits (hlinked : Linked blocks) (hi : i < blocks.size) :
    (visits blocks fuel i).Nodup := by
  induction fuel generalizing i with
  | zero => exact List.nodup_nil
  | succ fuel ih =>
    have hb : blocks[i]? = some blocks[i] := Array.getElem?_eq_getElem hi
    have hsize := size_predTable blocks
    -- A child does not dominate the block itself, so the block is not visited below.
    have hbelow : ∀ v ∈ blocks[i].children.flatMap (visits blocks fuel), v.place ≠ i := by
      intro v hv hplace
      obtain ⟨c, hc, hv⟩ := List.mem_flatMap.mp hv
      obtain ⟨hclt, hidom⟩ := hlinked.of_mem_children hb hc
      have hdom := (dominates_of_mem_visits hlinked hclt hv).2
      rw [hplace] at hdom
      exact hidom.ne (hidom.dominates.antisymm hdom
        (hlinked.connected.reached i (hsize.symm ▸ hi)))
    have hchildren : blocks[i].children.Nodup := by
      rw [hlinked.children_eq hb]
      exact List.Nodup.filter _ List.nodup_range
    have hnodup : (blocks[i].children.flatMap (visits blocks fuel)).Nodup := by
      refine List.nodup_flatMap.mpr
        ⟨fun c hc => ih (hlinked.of_mem_children hb hc).1, hchildren.imp_of_mem ?_⟩
      intro c c' hc hc' hne v hv hv'
      obtain ⟨hlt, hdom⟩ := dominates_of_mem_visits hlinked (hlinked.of_mem_children hb hc).1 hv
      obtain ⟨_, hdom'⟩ := dominates_of_mem_visits hlinked (hlinked.of_mem_children hb hc').1 hv'
      exact siblings_disjoint hlinked.connected ((hlinked.mem_children hb).mp hc)
        ((hlinked.mem_children hb).mp hc') hne (hsize.symm ▸ hlt) hdom hdom'
    rw [visits_succ hb, List.nodup_cons, List.mem_append, List.mem_singleton, List.nodup_append]
    refine ⟨?_, hnodup, List.nodup_singleton _, ?_⟩
    · rintro (hmem | heq)
      · exact hbelow _ hmem rfl
      · cases heq
    · rintro v hv _ hlast rfl
      rw [List.mem_singleton.mp hlast] at hv
      exact hbelow _ hv rfl

/-- **A walk down from the entry enters every block once and leaves it once.** -/
theorem perm_visits (hlinked : Linked blocks) (hsize : 0 < blocks.size) :
    (visits blocks blocks.size 0).Perm
      ((List.range blocks.size).map .enter ++ (List.range blocks.size).map .leave) := by
  have hpos := depth_pos hlinked.connected (b := 0) ((size_predTable blocks).symm ▸ hsize)
  have hnodup : ((List.range blocks.size).map Visit.enter ++
      (List.range blocks.size).map Visit.leave).Nodup := by
    refine List.nodup_append.mpr ⟨List.nodup_range.map fun _ _ h => Visit.enter.inj h,
      List.nodup_range.map fun _ _ h => Visit.leave.inj h, ?_⟩
    rintro _ hv _ hv' rfl
    obtain ⟨k, _, rfl⟩ := List.mem_map.mp hv
    obtain ⟨k', _, heq⟩ := List.mem_map.mp hv'
    cases heq
  refine (List.perm_ext_iff_of_nodup (nodup_visits hlinked hsize) hnodup).mpr fun v => ?_
  have hmem : v ∈ (List.range blocks.size).map Visit.enter ++
      (List.range blocks.size).map Visit.leave ↔ v.place < blocks.size := by
    cases v <;> simp [Visit.place]
  rw [hmem]
  constructor
  · intro hv
    exact (dominates_of_mem_visits hlinked hsize hv).1
  · intro hv
    exact mem_visits hlinked hsize (by omega) hv (entry_dominates _ _)

end Ssa

end BlockFlow
