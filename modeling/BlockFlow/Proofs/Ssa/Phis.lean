import BlockFlow.Proofs.Ssa.Frontiers
import Mathlib.Tactic.IntervalCases

/-!
# Phis and the iterated frontier

A variable gets a phi where its definitions meet, and nowhere else: on the iterated frontier of the
blocks that store it and of the entry, which defines all variables (`Graph.phis_toSsa_iff`).  The
iterated frontier is the least set of blocks that holds the frontiers of these blocks and of the
blocks it holds itself; a phi is a definition too, so its block adds to the set like a store.

The search for it goes over places and starts from instructions.  It finds the least closed set of
places (`Ssa.mem_phiNames_iff`); places and blocks have the same frontiers, so the set is carried
over from the ones to the others step by step.
-/

namespace BlockFlow

open Dominance

/-- The block defines a variable otherwise than by a phi: it stores it, or it is the entry, which is
known by its number and makes room for every variable. -/
def Block.Defines (b : Block) (name : String) : Prop :=
  b.id = 0 ∨ ∃ s ∈ b.stores, s.name = name

/-- The blocks that can be reached and define a variable otherwise than by a phi. -/
def Graph.DefinedAt (g : Graph) (name : String) (i : Nat) : Prop :=
  (∃ passed, g.Route passed i) ∧ ∃ b, g.blocks[i]? = some b ∧ b.Defines name

/-- What lies on a frontier can be reached. -/
theorem Graph.OnFrontier.reached {g : Graph} {x b : Nat} (h : g.OnFrontier x b) :
    ∃ passed, g.Route passed b := by
  obtain ⟨⟨p, ⟨passed, hroute⟩, hbranch, _⟩, _⟩ := h
  exact ⟨passed ++ [p], hroute.step hbranch⟩

/-- The frontier of an entry that no block branches to is empty. -/
theorem Graph.not_onFrontier_entry {g : Graph} (hentry : ∀ i, 0 ∉ g.successors i) (b : Nat) :
    ¬ g.OnFrontier 0 b := by
  have hdom : g.Dominates 0 b := by
    intro passed hroute
    induction hroute with
    | entry => simp
    | step _ _ ih => exact List.mem_append_left _ ih
  rintro ⟨⟨p, _, hbranch, _⟩, hnot⟩
  refine hnot ⟨hdom, ?_⟩
  rintro rfl
  exact hentry p hbranch

namespace Ssa

variable {g : Graph} {blocks : Array SsaBlock} {name : String} {i k : Nat}

/-! ### Definitions -/

theorem names_targets_instrsOf (vars : List String) (b : Block) :
    (targets (instrsOf vars b)).map Version.name =
      (if b.id = 0 then vars else []) ++ b.stores.map Store.name := by
  have hstores : (targets (b.stores.map storeInstr)).map Version.name =
      b.stores.map Store.name := by
    rw [targets, List.filterMap_map, List.map_filterMap]
    exact congrFun (List.filterMap_eq_map (f := Store.name)) b.stores
  have hterm : targets (terminatorInstrs b.term) = [] := by
    unfold terminatorInstrs
    split <;> rfl
  rw [instrsOf, targets_append, targets_append, hterm, List.append_nil, List.map_append, hstores]
  split
  · exact congrArg (· ++ b.stores.map Store.name) (names_targets_allocas vars)
  · rfl

theorem mem_targets_instrsOf_iff {vars : List String} (b : Block) (hname : name ∈ vars) :
    name ∈ (targets (instrsOf vars b)).map Version.name ↔ b.Defines name := by
  rw [names_targets_instrsOf, List.mem_append, List.mem_map, Block.Defines]
  by_cases hid : b.id = 0
  · simp [hid, hname]
  · simp [hid]

/-- The search for the places of phis starts from the blocks that define the variable otherwise. -/
theorem mem_definingPlaces_iff_definedAt (h : g.Listed) (hname : name ∈ g.vars) :
    k ∈ definingPlaces name (withDominance g.liveBlocks) ↔
      ∃ i, (livePlaces g)[k]? = some i ∧ g.DefinedAt name i := by
  constructor
  · intro hmem
    have hlt : k < (livePlaces g).length := by
      rw [← size_placed h, placed, withPhis, Array.size_mapIdx]
      exact List.mem_range.mp (List.mem_filter.mp hmem).1
    have hk := List.getElem?_eq_getElem hlt
    obtain ⟨block, hblock⟩ := exists_block_of_place h hk
    rw [mem_definingPlaces_iff h hk hblock, mem_targets_instrsOf_iff block hname] at hmem
    exact ⟨_, hk, (exists_place_iff h).mp ⟨k, hk⟩, block, hblock, hmem⟩
  · rintro ⟨i, hk, _, block, hblock, hdefines⟩
    rw [mem_definingPlaces_iff h hk hblock, mem_targets_instrsOf_iff block hname]
    exact hdefines

/-! ### Iterated frontiers -/

/-- **Iterated frontiers among places are iterated frontiers among blocks.** -/
theorem mem_phiNames_iff_inIteratedFrontier (h : g.Listed) (hentry : ∀ i, 0 ∉ g.successors i)
    (hname : name ∈ g.vars) (hk : (livePlaces g)[k]? = some i) :
    name ∈ phiNames g k ↔ InIteratedFrontier g.OnFrontier (g.DefinedAt name) i := by
  rw [mem_phiNames_iff]
  constructor
  · rintro ⟨_, hmem⟩
    obtain ⟨i', hk', hmem'⟩ : ∃ i', (livePlaces g)[k]? = some i' ∧
        InIteratedFrontier g.OnFrontier (g.DefinedAt name) i' := by
      refine hmem.transfer (R := fun k i => (livePlaces g)[k]? = some i) ?_ ?_
      · intro d hd
        exact (mem_definingPlaces_iff_definedAt h hname).mp hd
      · intro kd d ky hd hy
        obtain ⟨y, hky⟩ := exists_place_of_mem_frontiers h hy
        exact ⟨y, hky, (mem_frontiers_placed_iff h hentry hd hky).mp hy⟩
    exact Option.some.inj (hk'.symm.trans hk) ▸ hmem'
  · intro hmem
    obtain ⟨k', hk', hmem'⟩ : ∃ k', (livePlaces g)[k']? = some i ∧
        InIteratedFrontier
          (fun d y => y ∈ (frontiers (predTable (placed g)) (tree (predTable (placed g)))).of d)
          (· ∈ definingPlaces name (withDominance g.liveBlocks)) k' := by
      refine hmem.transfer (R := fun i k => (livePlaces g)[k]? = some i) ?_ ?_
      · intro d hd
        obtain ⟨kd, hkd⟩ := (exists_place_iff h).mpr hd.1
        exact ⟨kd, hkd, (mem_definingPlaces_iff_definedAt h hname).mpr ⟨d, hkd, hd⟩⟩
      · intro d kd y hkd hy
        obtain ⟨ky, hky⟩ := (exists_place_iff h).mpr hy.reached
        exact ⟨ky, hky, (mem_frontiers_placed_iff h hentry hkd hky).mpr hy⟩
    exact ⟨hname, place_unique hk' hk ▸ hmem'⟩

/-- The variables that the phis of a block define, in order. -/
theorem names_targets_phis {b : SsaBlock} {block : Block}
    (h : b.erase = (placedBlock g k block).erase) :
    b.phis.map (fun phi => phi.target.map Version.name) = (phiNames g k).map some := by
  have heq := congrArg (List.map fun phi : Instr => phi.target.map Version.name) (erase_phis h)
  simp only [List.map_map] at heq
  refine Eq.trans (List.map_congr_left fun phi _ => ?_) heq
  simp only [Function.comp_apply, Instr.erase, Option.map_map]
  rfl

end Ssa

namespace Graph

open Ssa

/-- **Phis sit on the iterated frontier.**  Take a graph that lists the predecessors of its blocks,
in any order and however often, in which no block branches to the entry and no variable stands
twice.  It has a static single assignment form, whose blocks stand for the blocks that can be
reached and list their frontiers.  A block there has a phi for a variable exactly if it is in the
least set that holds the frontiers of the entry, of the blocks that can be reached and store the
variable, and of the blocks in the set.  It has no two phis for one variable; its phis stand in the
order of the variables, and each has one operand for each predecessor that the block lists, all of
them versions of its own variable. -/
theorem phis_toSsa_iff {g : Graph} (h : g.Listed) (hentry : ∀ i, 0 ∉ g.successors i)
    (hvars : g.vars.Nodup) : ∃ f places, g.toSsa = .ok f ∧ f.Mirrors g places ∧
      ∀ (k i : Nat) (y : SsaBlock), places[k]? = some i → f.blocks[k]? = some y →
        (∀ kb, kb ∈ y.frontier ↔ ∃ b, places[kb]? = some b ∧ g.OnFrontier i b) ∧
        (∀ v ∈ g.vars, (∃ phi ∈ y.phis, phi.target.map Version.name = some v) ↔
          InIteratedFrontier g.OnFrontier (g.DefinedAt v) i) ∧
        (∃ names : List String, names.Sublist g.vars ∧ names.Nodup ∧
          y.phis.map (fun phi => phi.target.map Version.name) = names.map some) ∧
        ∀ phi ∈ y.phis, phi.kind = .phi ∧ ∃ target, phi.target = some target ∧
          phi.uses.map Version.name = List.replicate y.preds.length target.name := by
  obtain ⟨blocks, htoSsa, hshape, -⟩ := exists_toSsa h
  refine ⟨⟨g.vars, blocks⟩, livePlaces g, htoSsa, mirrors_of_sameShape h hshape, ?_⟩
  intro k i y hk hy
  obtain ⟨_, _, herase⟩ := exists_source h hshape hk hy
  have hnames := names_targets_phis herase
  have hsublist : (phiNames g k).Sublist g.vars := List.filter_sublist
  refine ⟨fun kb => mem_frontier_iff h hentry hshape hk hy, fun v hv => ?_,
    ⟨phiNames g k, hsublist, hvars.sublist hsublist, hnames⟩, fun phi hphi => ?_⟩
  · have hmem : (∃ phi ∈ y.phis, phi.target.map Version.name = some v) ↔
        v ∈ phiNames g k := by
      rw [← List.mem_map, hnames, List.mem_map]
      simp
    rw [hmem, mem_phiNames_iff_inIteratedFrontier h hentry hv hk]
  · obtain ⟨hkind, target, htarget, _, huses⟩ := exists_target_of_mem_phis herase hphi
    exact ⟨hkind, target, htarget, huses⟩

/-- Only the entry defines the variable that nothing is assigned to. -/
theorem eq_zero_of_definedAt_nested {d : Nat} (h : nested.DefinedAt "n" d) : d = 0 := by
  obtain ⟨_, b, hb, hdefines⟩ := h
  have hd : d < 7 := (Array.getElem?_eq_some_iff.mp hb).1
  interval_cases d <;> cases hb <;> simp [nested, Block.Defines] at hdefines ⊢

/-- The variable that is assigned has a phi in the inner loop, where the assignment ends, and in the
outer loop, where only the phi of the inner loop ends; a variable that nothing is assigned to has
none. -/
theorem phis_nested : ∃ (f : SsaFunction) (places : List Nat) (kOuter kInner : Nat)
    (outer inner : SsaBlock), nested.toSsa = .ok f ∧ f.Mirrors nested places ∧
    places[kOuter]? = some 1 ∧ places[kInner]? = some 4 ∧
    f.blocks[kOuter]? = some outer ∧ f.blocks[kInner]? = some inner ∧
    (∃ phi ∈ outer.phis, phi.target.map Version.name = some "s") ∧
    (∃ phi ∈ inner.phis, phi.target.map Version.name = some "s") ∧
    ¬ ∃ phi ∈ inner.phis, phi.target.map Version.name = some "n" := by
  obtain ⟨f, places, htoSsa, hmirrors, hphis⟩ :=
    phis_toSsa_iff listed_nested entry_nested (by decide)
  have houter : nested.Route [0] 1 := .step .entry (by decide)
  obtain ⟨kOuter, hkOuter⟩ := List.mem_iff_getElem?.mp ((hmirrors.mem_iff 1).mpr ⟨_, houter⟩)
  obtain ⟨kInner, hkInner⟩ :=
    List.mem_iff_getElem?.mp ((hmirrors.mem_iff 4).mpr ⟨_, route_nested_inner⟩)
  obtain ⟨_, outerBlock, _, houterBlock, _⟩ := hmirrors.block hkOuter
  obtain ⟨_, innerBlock, _, hinnerBlock, _⟩ := hmirrors.block hkInner
  have hofOuter := (hphis kOuter 1 outerBlock hkOuter houterBlock).2.1
  have hofInner := (hphis kInner 4 innerBlock hkInner hinnerBlock).2.1
  have hset : nested.DefinedAt "s" 3 := by
    refine ⟨⟨[0, 1, 2], .step (.step houter (by decide)) (by decide)⟩, _, rfl, .inr ?_⟩
    exact ⟨_, List.mem_singleton.mpr rfl, rfl⟩
  have hinner : InIteratedFrontier nested.OnFrontier (nested.DefinedAt "s") 4 :=
    .of_start hset onFrontier_nested_set
  refine ⟨f, places, kOuter, kInner, outerBlock, innerBlock, htoSsa, hmirrors, hkOuter, hkInner,
    houterBlock, hinnerBlock, ?_, ?_, ?_⟩
  · rw [hofOuter "s" (by decide)]
    exact .of_found hinner onFrontier_nested_inner
  · rw [hofInner "s" (by decide)]
    exact hinner
  · rw [hofInner "n" (by decide)]
    have hnone : ∀ y, ¬ InIteratedFrontier nested.OnFrontier (nested.DefinedAt "n") y := by
      intro y hy
      induction hy with
      | of_start hd hfrontier =>
        exact not_onFrontier_entry entry_nested _ (eq_zero_of_definedAt_nested hd ▸ hfrontier)
      | of_found _ _ ih => exact ih
    exact hnone 4

end Graph

end BlockFlow
