import BlockFlow.Proofs.Ssa.Dominators

/-!
# Frontiers and routes

The frontiers that a function in static single assignment form knows of are found without a look at
what dominates what: by climbs along immediate dominators, from the predecessors of the blocks that
have at least two.  They are the frontiers of the graph all the same.  A block has another one in
its frontier exactly if it dominates a block that branches there, but does not strictly dominate the
other block itself (`Graph.mem_frontier_toSsa_iff`).

What the climbs find is known for places (`Dominance.mem_frontiers_iff`).  Places are linked as
blocks are by branches, blocks that cannot be reached left aside (`Ssa.mem_predTable_iff`), and
dominance among places is dominance among blocks.
-/

namespace BlockFlow

open Dominance

namespace Graph

/-- Every route from the entry to `b` leads through `a`. -/
def Dominates (g : Graph) (a b : Nat) : Prop :=
  ∀ passed, g.Route passed b → a ∈ passed ++ [b]

theorem Dominates.refl (g : Graph) (a : Nat) : g.Dominates a a :=
  fun passed _ => List.mem_append_right passed (List.mem_singleton.mpr rfl)

/-- The dominance of `x` ends at `b`: it dominates a block that can be reached and branches there,
but it does not strictly dominate `b`. -/
def OnFrontier (g : Graph) (x b : Nat) : Prop :=
  (∃ p, (∃ passed, g.Route passed p) ∧ b ∈ g.successors p ∧ g.Dominates x p) ∧
    ¬ (g.Dominates x b ∧ x ≠ b)

end Graph

namespace Ssa

variable {g : Graph} {blocks : Array SsaBlock} {b kb kx x : Nat}

/-- Where no block branches to the entry, no place leads to the first. -/
theorem of_predTable_zero (h : g.Listed) (hentry : ∀ i, 0 ∉ g.successors i) :
    (predTable (placed g)).of 0 = [] := by
  rw [List.eq_nil_iff_forall_not_mem]
  intro kp hmem
  obtain ⟨p, _, hbranch⟩ := (mem_predTable_iff h (livePlaces_zero h)).mp hmem
  exact hentry p hbranch

/-- Renaming leaves frontiers alone. -/
theorem frontier_eq (h : g.Listed) (hshape : SameShape (placed g) blocks)
    (hx : (livePlaces g)[kx]? = some x) {block : SsaBlock} (hblock : blocks[kx]? = some block) :
    block.frontier = (frontiers (predTable (placed g)) (tree (predTable (placed g)))).of kx := by
  obtain ⟨_, _, herase⟩ := exists_source h hshape hx hblock
  have heq := congrArg SsaBlock.frontier herase
  rw [predTable_placed]
  exact heq

/-- **Frontiers among places are frontiers among blocks.** -/
theorem mem_frontiers_placed_iff (h : g.Listed) (hentry : ∀ i, 0 ∉ g.successors i)
    (hx : (livePlaces g)[kx]? = some x) (hb : (livePlaces g)[kb]? = some b) :
    kb ∈ (frontiers (predTable (placed g)) (tree (predTable (placed g)))).of kx ↔
      g.OnFrontier x b := by
  have hstrict : (Dominates (predTable (placed g)) kx kb ∧ kx ≠ kb) ↔
      (g.Dominates x b ∧ x ≠ b) := by
    have hsame : kx = kb ↔ x = b := by
      constructor
      · rintro rfl
        exact Option.some.inj (hx.symm.trans hb)
      · rintro rfl
        exact place_unique hx hb
    rw [dominates_placed_iff h hx hb, ne_eq, ne_eq, hsame]
    exact Iff.rfl
  have hpred : (∃ kp ∈ (predTable (placed g)).of kb, Dominates (predTable (placed g)) kx kp) ↔
      ∃ p, (∃ passed, g.Route passed p) ∧ b ∈ g.successors p ∧ g.Dominates x p := by
    constructor
    · rintro ⟨kp, hkp, hdom⟩
      obtain ⟨p, hp, hbranch⟩ := (mem_predTable_iff h hb).mp hkp
      exact ⟨p, (exists_place_iff h).mp ⟨kp, hp⟩, hbranch, (dominates_placed_iff h hx hp).mp hdom⟩
    · rintro ⟨p, hreached, hbranch, hdom⟩
      obtain ⟨kp, hp⟩ := (exists_place_iff h).mpr hreached
      exact ⟨kp, (mem_predTable_iff h hb).mpr ⟨p, hp, hbranch⟩,
        (dominates_placed_iff h hx hp).mpr hdom⟩
  rw [mem_frontiers_iff (connected_placed h) (of_predTable_zero h hentry), hpred, hstrict]
  exact Iff.rfl

/-- What stands in a frontier is a place. -/
theorem exists_place_of_mem_frontiers (h : g.Listed)
    (hmem : kb ∈ (frontiers (predTable (placed g)) (tree (predTable (placed g)))).of kx) :
    ∃ b, (livePlaces g)[kb]? = some b := by
  have hlt : kb < (livePlaces g).length := by
    rw [← size_placed h, ← size_predTable]
    exact (mem_frontiers.mp hmem).2.1
  exact ⟨_, List.getElem?_eq_getElem hlt⟩

/-- The frontier of a block of the function holds the places of the blocks on its frontier. -/
theorem mem_frontier_iff (h : g.Listed) (hentry : ∀ i, 0 ∉ g.successors i)
    (hshape : SameShape (placed g) blocks) (hx : (livePlaces g)[kx]? = some x) {block : SsaBlock}
    (hblock : blocks[kx]? = some block) :
    kb ∈ block.frontier ↔ ∃ b, (livePlaces g)[kb]? = some b ∧ g.OnFrontier x b := by
  rw [frontier_eq h hshape hx hblock]
  constructor
  · intro hmem
    obtain ⟨b, hb⟩ := exists_place_of_mem_frontiers h hmem
    exact ⟨b, hb, (mem_frontiers_placed_iff h hentry hx hb).mp hmem⟩
  · rintro ⟨b, hb, hfrontier⟩
    exact (mem_frontiers_placed_iff h hentry hx hb).mpr hfrontier

end Ssa

namespace Graph

open Ssa

/-- **Frontiers are true frontiers.**  Take a graph that lists the predecessors of its blocks, in
any order and however often, and in which no block branches to the entry.  It has a static single
assignment form, whose blocks stand for the blocks that can be reached.  Each block has its frontier
listed there in the order of the blocks, without repetition, and another block stands in the list
exactly if the one dominates a block that can be reached and branches to the other, but does not
strictly dominate the other.  Dominance is that of the graph: every route from the entry leads
through the dominator. -/
theorem mem_frontier_toSsa_iff {g : Graph} (h : g.Listed) (hentry : ∀ i, 0 ∉ g.successors i) :
    ∃ f places, g.toSsa = .ok f ∧ f.Mirrors g places ∧
      ∀ (kx x : Nat) (block : SsaBlock), places[kx]? = some x → f.blocks[kx]? = some block →
        block.frontier.Pairwise (· < ·) ∧
        ∀ kb, kb ∈ block.frontier ↔ ∃ b, places[kb]? = some b ∧ g.OnFrontier x b := by
  obtain ⟨blocks, htoSsa, hshape, -⟩ := exists_toSsa h
  refine ⟨⟨g.vars, blocks⟩, livePlaces g, htoSsa, mirrors_of_sameShape h hshape, ?_⟩
  intro kx x block hx hblock
  refine ⟨?_, fun kb => mem_frontier_iff h hentry hshape hx hblock⟩
  rw [frontier_eq h hshape hx hblock]
  exact pairwise_frontiers _ _ kx

/-- Two loops, one inside the other: the inner one is a block that branches to itself and to the
head of the outer one.  It is entered with or without passing an assignment, lists one of its
predecessors twice, and lists one that cannot be reached. -/
def nested : Graph where
  vars := ["n", "s"]
  blocks := #[
    ⟨0, "entry", [], some (.jump 1), []⟩,
    ⟨1, "outer", [], some (.branch (.load "n") 2 5), [0, 4]⟩,
    ⟨2, "test", [], some (.branch (.load "s") 3 4), [1]⟩,
    ⟨3, "set", [⟨"s", .const 1⟩], some (.jump 4), [2]⟩,
    ⟨4, "inner", [], some (.branch (.load "n") 4 1), [2, 3, 6, 4, 2]⟩,
    ⟨5, "end", [], some (.ret (.load "s")), [1]⟩,
    ⟨6, "lost", [], some (.jump 4), []⟩]

theorem map_id_nested : nested.blocks.toList.map Block.id = List.range nested.blocks.size := by
  decide

theorem listed_nested : nested.Listed :=
  listed_of_edges map_id_nested (by decide) (by decide) (by decide) (by decide)

theorem entry_nested (i : Nat) : 0 ∉ nested.successors i := by
  have hnone : ∀ e ∈ nested.edges, e.2 ≠ 0 := by decide
  exact fun h => hnone (i, 0) ((mem_edges_iff map_id_nested).mpr h) rfl

theorem route_nested_inner : nested.Route [0, 1, 2] 4 :=
  .step (.step (.step .entry (by decide)) (by decide)) (by decide)

/-- The inner loop can be reached without the assignment, whose dominance ends there. -/
theorem onFrontier_nested_set : nested.OnFrontier 3 4 := by
  have hset : nested.Route [0, 1, 2] 3 :=
    .step (.step (.step .entry (by decide)) (by decide)) (by decide)
  refine ⟨⟨3, ⟨_, hset⟩, by decide, .refl nested 3⟩, ?_⟩
  rintro ⟨hdom, _⟩
  exact absurd (hdom _ route_nested_inner) (by decide)

/-- The dominance of the inner loop ends at the head of the outer one. -/
theorem onFrontier_nested_inner : nested.OnFrontier 4 1 := by
  have houter : nested.Route [0] 1 := .step .entry (by decide)
  refine ⟨⟨4, ⟨_, route_nested_inner⟩, by decide, .refl nested 4⟩, ?_⟩
  rintro ⟨hdom, _⟩
  exact absurd (hdom _ houter) (by decide)

/-- The inner loop stands in its own frontier, together with the head of the outer loop; of these
two only the inner loop stands in the frontier of the block with the assignment. -/
theorem mem_frontier_nested : ∃ (f : SsaFunction) (places : List Nat) (kOuter kSet kInner : Nat)
    (set inner : SsaBlock), nested.toSsa = .ok f ∧ f.Mirrors nested places ∧
    places[kOuter]? = some 1 ∧ places[kSet]? = some 3 ∧ places[kInner]? = some 4 ∧
    f.blocks[kSet]? = some set ∧ f.blocks[kInner]? = some inner ∧
    kInner ∈ inner.frontier ∧ kOuter ∈ inner.frontier ∧
    kInner ∈ set.frontier ∧ kOuter ∉ set.frontier := by
  obtain ⟨f, places, htoSsa, hmirrors, hfrontier⟩ :=
    mem_frontier_toSsa_iff listed_nested entry_nested
  have houter : nested.Route [0] 1 := .step .entry (by decide)
  have hset : nested.Route [0, 1, 2] 3 := .step (.step houter (by decide)) (by decide)
  obtain ⟨kOuter, hkOuter⟩ := List.mem_iff_getElem?.mp ((hmirrors.mem_iff 1).mpr ⟨_, houter⟩)
  obtain ⟨kSet, hkSet⟩ := List.mem_iff_getElem?.mp ((hmirrors.mem_iff 3).mpr ⟨_, hset⟩)
  obtain ⟨kInner, hkInner⟩ :=
    List.mem_iff_getElem?.mp ((hmirrors.mem_iff 4).mpr ⟨_, route_nested_inner⟩)
  obtain ⟨_, setBlock, _, hsetBlock, _⟩ := hmirrors.block hkSet
  obtain ⟨_, innerBlock, _, hinnerBlock, _⟩ := hmirrors.block hkInner
  have hofSet := (hfrontier kSet 3 setBlock hkSet hsetBlock).2
  have hofInner := (hfrontier kInner 4 innerBlock hkInner hinnerBlock).2
  refine ⟨f, places, kOuter, kSet, kInner, setBlock, innerBlock, htoSsa, hmirrors, hkOuter, hkSet,
    hkInner, hsetBlock, hinnerBlock, ?_, ?_, ?_, ?_⟩
  · rw [hofInner]
    refine ⟨4, hkInner, ⟨4, ⟨_, route_nested_inner⟩, by decide, .refl nested 4⟩, ?_⟩
    exact fun h => h.2 rfl
  · rw [hofInner]
    exact ⟨1, hkOuter, onFrontier_nested_inner⟩
  · rw [hofSet]
    exact ⟨4, hkInner, onFrontier_nested_set⟩
  · rw [hofSet]
    rintro ⟨b, hb, ⟨p, _, hbranch, hdom⟩, _⟩
    obtain rfl : 1 = b := Option.some.inj (hkOuter.symm.trans hb)
    -- The head is entered from the entry and from the inner loop, neither behind the assignment.
    have honly : ∀ e ∈ nested.edges, e.2 = 1 → e.1 = 0 ∨ e.1 = 4 := by decide
    rcases honly (p, 1) ((mem_edges_iff map_id_nested).mpr hbranch) rfl with rfl | rfl
    · exact absurd (hdom [] .entry) (by decide)
    · exact absurd (hdom _ route_nested_inner) (by decide)

end Graph

end BlockFlow
