import BlockFlow.Ssa.Renaming

/-!
# Visible versions

The versions that are visible at a point of a walk stand in a list, the last one first.  The one
that counts for a variable is the first of its name (`Ssa.latest`), and a use is current when it
names this one.  Renaming a list of instructions makes every use current at its place (`Ssa.Reads`),
puts the versions defined on top of those that were visible, and changes nothing but the numbers of
versions: with all numbers erased the instructions are what they were.
-/

namespace BlockFlow

/-! ### Erasing numbers -/

/-- The variable of a version, without its number. -/
def Version.erase (v : Version) : Version :=
  ⟨v.name, 0⟩

/-- An instruction with the numbers of all versions erased. -/
def Instr.erase (instr : Instr) : Instr where
  kind := instr.kind
  target := instr.target.map Version.erase
  uses := instr.uses.map Version.erase

/-- A block with the numbers of all versions erased. -/
def SsaBlock.erase (b : SsaBlock) : SsaBlock :=
  { b with
    phis := b.phis.map Instr.erase
    instrs := b.instrs.map Instr.erase }

namespace SsaBlock

variable {b b' : SsaBlock}

theorem id_eq_of_erase (h : b'.erase = b.erase) : b'.id = b.id := by
  have heq := congrArg SsaBlock.id h
  exact heq

theorem preds_eq_of_erase (h : b'.erase = b.erase) : b'.preds = b.preds := by
  have heq := congrArg SsaBlock.preds h
  exact heq

theorem succs_eq_of_erase (h : b'.erase = b.erase) : b'.succs = b.succs := by
  have heq := congrArg SsaBlock.succs h
  exact heq

theorem children_eq_of_erase (h : b'.erase = b.erase) : b'.children = b.children := by
  have heq := congrArg SsaBlock.children h
  exact heq

theorem phis_erase_of_erase (h : b'.erase = b.erase) :
    b'.phis.map Instr.erase = b.phis.map Instr.erase :=
  congrArg SsaBlock.phis h

theorem instrs_erase_of_erase (h : b'.erase = b.erase) :
    b'.instrs.map Instr.erase = b.instrs.map Instr.erase :=
  congrArg SsaBlock.instrs h

end SsaBlock

namespace Ssa

/-- The versions that instructions define, in order. -/
def targets (instrs : List Instr) : List Version :=
  instrs.filterMap Instr.target

theorem targets_append (before after : List Instr) :
    targets (before ++ after) = targets before ++ targets after :=
  List.filterMap_append

theorem targets_cons (instr : Instr) (rest : List Instr) :
    targets (instr :: rest) = instr.target.toList ++ targets rest := by
  cases h : instr.target with
  | none => simp [targets, h]
  | some v => simp [targets, h]

theorem targets_erase (instrs : List Instr) :
    targets (instrs.map Instr.erase) = (targets instrs).map Version.erase := by
  rw [targets, targets, List.filterMap_map, List.map_filterMap]
  rfl

theorem definitionCount_eq (instrs : List Instr) :
    definitionCount instrs = (targets instrs).length := by
  rw [definitionCount, targets, List.length_filterMap_eq_countP]

/-- Instructions that differ in numbers only define equally many versions. -/
theorem length_targets_of_erase {instrs instrs' : List Instr}
    (h : instrs'.map Instr.erase = instrs.map Instr.erase) :
    (targets instrs').length = (targets instrs).length := by
  have heq := congrArg (fun l => (targets l).length) h
  simpa only [targets_erase, List.length_map] using heq

/-- Instructions that differ in numbers only define the same variables. -/
theorem names_targets_of_erase {instrs instrs' : List Instr}
    (h : instrs'.map Instr.erase = instrs.map Instr.erase) :
    (targets instrs').map Version.name = (targets instrs).map Version.name := by
  have heq := congrArg (fun l => (targets l).map Version.name) h
  simp only [targets_erase, List.map_map] at heq
  exact heq

/-! ### The version that counts -/

/-- The visible version of a variable, the last one visible standing first. -/
def latest (visible : List Version) (name : String) : Option Version :=
  visible.find? fun v => v.name == name

/-- A use names the visible version of its variable, if there is one. -/
def Current (visible : List Version) (use : Version) : Prop :=
  ∀ v, latest visible use.name = some v → use = v

theorem latest_append (above below : List Version) (name : String) :
    latest (above ++ below) name = (latest above name).or (latest below name) :=
  List.find?_append

theorem name_of_latest {visible : List Version} {name : String} {v : Version}
    (h : latest visible name = some v) : v.name = name := by
  have hname := List.find?_some h
  simpa using hname

theorem latest_eq_none_iff {visible : List Version} {name : String} :
    latest visible name = none ↔ ∀ v ∈ visible, v.name ≠ name := by
  simp [latest]

/-- A variable that is defined among some versions has a visible one. -/
theorem exists_latest {visible : List Version} {name : String}
    (h : name ∈ visible.map Version.name) : ∃ v, latest visible name = some v := by
  cases hlatest : latest visible name with
  | some v => exact ⟨v, rfl⟩
  | none =>
    obtain ⟨v, hv, hname⟩ := List.mem_map.mp h
    exact absurd hname (latest_eq_none_iff.mp hlatest v hv)

/-- A current use of a visible variable is its latest version. -/
theorem Current.latest_eq {visible : List Version} {use : Version} (h : Current visible use)
    (hname : use.name ∈ visible.map Version.name) : latest visible use.name = some use := by
  obtain ⟨v, hv⟩ := exists_latest hname
  rw [hv, ← h v hv]

/-! ### Renaming -/

namespace Definitions

variable (d : Definitions)

theorem name_resolve (use : Version) : (d.resolve use).name = use.name := by
  unfold resolve
  cases h : d.visible.find? fun version => version.name == use.name with
  | none => rfl
  | some v => exact name_of_latest h

theorem erase_resolve (use : Version) : (d.resolve use).erase = use.erase := by
  rw [Version.erase, Version.erase, name_resolve]

theorem current_resolve (use : Version) : Current d.visible (d.resolve use) := by
  intro v hv
  rw [name_resolve] at hv
  have hresolve : d.resolve use = (latest d.visible use.name).getD use := rfl
  rw [hresolve, hv]
  rfl

theorem renameTarget_spec (instr : Instr) :
    (d.renameTarget instr).1.erase = instr.erase ∧
      (d.renameTarget instr).1.uses = instr.uses ∧
      (d.renameTarget instr).2.visible = (d.renameTarget instr).1.target.toList ++ d.visible := by
  unfold renameTarget
  cases h : instr.target with
  | none => simp [h]
  | some v => simp [h, define, Instr.erase, Version.erase]

/-- Renaming phis keeps their operands. -/
theorem renamePhis_spec (phis : List Instr) :
    (d.renamePhis phis).1.map Instr.erase = phis.map Instr.erase ∧
      (d.renamePhis phis).1.map Instr.uses = phis.map Instr.uses ∧
      (d.renamePhis phis).2.visible = (targets (d.renamePhis phis).1).reverse ++ d.visible := by
  induction phis generalizing d with
  | nil => exact ⟨rfl, rfl, rfl⟩
  | cons phi rest ih =>
    obtain ⟨herase, huses, hvisible⟩ := d.renameTarget_spec phi
    obtain ⟨ihErase, ihUses, ihVisible⟩ := ih (d.renameTarget phi).2
    simp only [renamePhis, List.map_cons, herase, huses, ihErase, ihUses, ihVisible, hvisible,
      targets_cons, List.reverse_append, List.append_assoc, true_and]
    cases (d.renameTarget phi).1.target <;> rfl

end Definitions

/-- Every use of instructions is current at its place, given what is visible at the first. -/
def Reads : (visible : List Version) → List Instr → Prop
  | _, [] => True
  | visible, instr :: rest =>
    (∀ use ∈ instr.uses, Current visible use) ∧ Reads (instr.target.toList ++ visible) rest

theorem Reads.behind {visible : List Version} (before : List Instr) {after : List Instr}
    (h : Reads visible (before ++ after)) : Reads ((targets before).reverse ++ visible) after := by
  induction before generalizing visible with
  | nil => exact h
  | cons instr rest ih =>
    have hrest := ih h.2
    rw [targets_cons, List.reverse_append, List.append_assoc]
    cases htarget : instr.target with
    | none =>
      rw [htarget] at hrest
      exact hrest
    | some v =>
      rw [htarget] at hrest
      exact hrest

theorem Definitions.renameInstrs_spec (d : Definitions) (instrs : List Instr) :
    (d.renameInstrs instrs).1.map Instr.erase = instrs.map Instr.erase ∧
      Reads d.visible (d.renameInstrs instrs).1 ∧
      (d.renameInstrs instrs).2.visible =
        (targets (d.renameInstrs instrs).1).reverse ++ d.visible := by
  induction instrs generalizing d with
  | nil => exact ⟨rfl, trivial, rfl⟩
  | cons instr rest ih =>
    let read : Instr := { instr with uses := instr.uses.map d.resolve }
    obtain ⟨herase, huses, hvisible⟩ := d.renameTarget_spec read
    obtain ⟨ihErase, ihReads, ihVisible⟩ := ih (d.renameTarget read).2
    have hread : read.erase = instr.erase := by
      have hmap : read.uses.map Version.erase = instr.uses.map Version.erase := by
        simp only [read, List.map_map]
        exact List.map_congr_left fun use _ => d.erase_resolve use
      rw [Instr.erase, hmap]
      rfl
    have hcurrent : ∀ use ∈ (d.renameTarget read).1.uses, Current d.visible use := by
      intro use huse
      rw [huses] at huse
      obtain ⟨use', _, rfl⟩ := List.mem_map.mp huse
      exact d.current_resolve use'
    rw [hvisible] at ihReads ihVisible
    refine ⟨?_, ⟨hcurrent, ihReads⟩, ?_⟩
    · exact List.cons_eq_cons.mpr ⟨herase.trans hread, ihErase⟩
    · refine ihVisible.trans ?_
      show _ = (targets ((d.renameTarget read).1 :: _)).reverse ++ d.visible
      rw [targets_cons, List.reverse_append, List.append_assoc]
      cases (d.renameTarget read).1.target <;> rfl

end Ssa

end BlockFlow
