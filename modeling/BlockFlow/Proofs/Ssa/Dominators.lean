import BlockFlow.Proofs.Ssa.Placement

/-!
# Dominators and routes

A function in static single assignment form knows of each of its blocks which blocks dominate it.
What it knows is true of the graph it was made from: one block dominates another exactly if every
route of the graph from the entry to the other leads through it (`Graph.dominates_toSsa_iff`).

The sweeps that find the dominators see places, not blocks, and ways along lists of predecessors,
not routes along branches.  Blocks that cannot be reached have no place, and the lists of
predecessors lose them.  That changes no dominator, because a route never comes through such a
block: ways over places and routes through the graph are the same (`Ssa.way_of_route` and
`Ssa.exists_route_of_way`).
-/

namespace BlockFlow

open Dominance

/-- The blocks of a function stand for the blocks of a graph that can be reached, one for one and
in the order of the graph; `places` lists the numbers of the latter. -/
structure SsaFunction.Mirrors (f : SsaFunction) (g : Graph) (places : List Nat) : Prop where
  increasing : places.Pairwise (· < ·)
  mem_iff : ∀ i, i ∈ places ↔ ∃ passed, g.Route passed i
  size_eq : f.blocks.size = places.length
  block : ∀ {k i : Nat}, places[k]? = some i → ∃ block b, g.blocks[i]? = some block ∧
    f.blocks[k]? = some b ∧ b.id = block.id ∧ b.name = block.name

namespace Ssa

variable {g : Graph} {blocks : Array SsaBlock} {a b ka kb : Nat}

theorem mirrors_of_sameShape (h : g.Listed) (hshape : SameShape (placed g) blocks) :
    SsaFunction.Mirrors ⟨g.vars, blocks⟩ g (livePlaces g) where
  increasing := List.Pairwise.filter _ List.pairwise_lt_range
  mem_iff i := by
    rw [← exists_place_iff h]
    exact List.mem_iff_getElem?
  size_eq := by
    show blocks.size = _
    rw [hshape.size_eq, size_placed h]
  block {k i} hk := by
    obtain ⟨block, hblock⟩ := exists_block_of_place h hk
    obtain ⟨b, hb, herase⟩ := hshape.exists_get (getElem?_placed h hk hblock)
    have hname : b.name = block.name := congrArg SsaBlock.name herase
    exact ⟨block, b, hblock, hb, SsaBlock.id_eq_of_erase herase, hname⟩

/-- A way over places is a route through the blocks that have these places. -/
theorem exists_route_of_way (h : g.Listed) {P : Nat → Prop} {k i : Nat}
    (hway : Way (predTable (placed g)) P k) (hk : (livePlaces g)[k]? = some i) :
    ∃ passed, g.Route passed i ∧ ∀ j ∈ passed ++ [i], ∃ m, (livePlaces g)[m]? = some j ∧ P m := by
  induction hway generalizing i with
  | entry hP =>
    have hentry : i = 0 := Option.some.inj (hk.symm.trans (livePlaces_zero h))
    subst hentry
    refine ⟨[], .entry, fun j hj => ?_⟩
    rw [List.nil_append, List.mem_singleton] at hj
    subst hj
    exact ⟨0, hk, hP⟩
  | @step p k _ hp hP ih =>
    obtain ⟨q, hq, hbranch⟩ := (mem_predTable_iff h hk).mp hp
    obtain ⟨passed, hroute, hall⟩ := ih hq
    refine ⟨passed ++ [q], hroute.step hbranch, fun j hj => ?_⟩
    rcases List.mem_append.mp hj with hj | hj
    · exact hall j hj
    · rw [List.mem_singleton] at hj
      subst hj
      exact ⟨k, hk, hP⟩

/-- **Dominance among places is dominance among blocks.** -/
theorem dominates_placed_iff (h : g.Listed) (ha : (livePlaces g)[ka]? = some a)
    (hb : (livePlaces g)[kb]? = some b) : Dominates (predTable (placed g)) ka kb ↔
      ∀ passed, g.Route passed b → a ∈ passed ++ [b] := by
  constructor
  · intro hdom passed hroute
    by_contra hnot
    have hall : ∀ j ∈ passed ++ [b], j ≠ a := fun j hj heq => hnot (heq ▸ hj)
    -- The route would lead to the place without passing the place of the dominator.
    apply hdom
    exact (way_of_route h hroute hall hb).mono fun m hm heq => hm a (heq ▸ ha) rfl
  · intro hall hway
    obtain ⟨passed, hroute, havoids⟩ := exists_route_of_way h hway hb
    obtain ⟨m, hm, hne⟩ := havoids a (hall passed hroute)
    exact hne (place_unique hm ha)

/-- What a block of the function says of its dominators. -/
theorem dominates_eq_true_iff (h : g.Listed) (hshape : SameShape (placed g) blocks)
    (hb : (livePlaces g)[kb]? = some b) : SsaFunction.dominates ⟨g.vars, blocks⟩ ka kb = true ↔
      Dominates (predTable (placed g)) ka kb := by
  obtain ⟨block, hblock⟩ := exists_block_of_place h hb
  obtain ⟨renamed, hrenamed, herase⟩ := hshape.exists_get (getElem?_placed h hb hblock)
  have hdoms : renamed.dominators = (dominators (predTable (placed g))).of kb := by
    rw [predTable_placed]
    have heq := congrArg SsaBlock.dominators herase
    exact heq
  have hlt : kb < (predTable (placed g)).size := by
    rw [size_predTable, size_placed h]
    exact (List.getElem?_eq_some_iff.mp hb).1
  unfold SsaFunction.dominates
  simp only [hrenamed]
  rw [List.contains_iff_mem, hdoms, mem_dominators_iff (connected_placed h) hlt]

end Ssa

namespace Graph

open Ssa

/-- **Dominators are true dominators.**  Take a graph whose branches lead to blocks of it, and whose
blocks list the blocks that branch to them and no others, in any order and however often.  Unless
it has no block at all, it has a static single assignment form, whose blocks stand for the blocks
that can be reached; and of two such blocks the first dominates the second there exactly if every
route of the graph from the entry to the second leads through the first. -/
theorem dominates_toSsa_iff {g : Graph} (htargets : g.TargetsInRange)
    (hpreds : ∀ i b, g.blocks[i]? = some b → ∀ p, p ∈ b.preds ↔ i ∈ g.successors p) :
    (g.blocks.size = 0 ∧ g.toSsa = .error .noEntry) ∨
    ∃ f places, g.toSsa = .ok f ∧ f.Mirrors g places ∧
      ∀ ka kb a b : Nat, places[ka]? = some a → places[kb]? = some b →
        (f.dominates ka kb = true ↔ ∀ passed, g.Route passed b → a ∈ passed ++ [b]) := by
  rcases toSsa_eq_noEntry_or_listed htargets fun {i b} => hpreds i b with hempty | h
  · exact .inl hempty
  · right
    obtain ⟨blocks, htoSsa, hshape, -⟩ := exists_toSsa h
    refine ⟨⟨g.vars, blocks⟩, livePlaces g, htoSsa, mirrors_of_sameShape h hshape, ?_⟩
    intro ka kb a b ha hb
    rw [dominates_eq_true_iff h hshape hb, dominates_placed_iff h ha hb]

/-- A graph with a branch back to its entry, a loop that can be entered in two places, a block that
cannot be reached, and a block that lists its predecessor twice and the lost one between. -/
def tangled : Graph where
  vars := ["n"]
  blocks := #[
    ⟨0, "entry", [], some (.branch (.load "n") 1 2), [3]⟩,
    ⟨1, "left", [], some (.branch (.load "n") 2 3), [0, 2]⟩,
    ⟨2, "right", [], some (.jump 1), [1, 0]⟩,
    ⟨3, "back", [], some (.jump 0), [1, 4, 1]⟩,
    ⟨4, "lost", [], some (.jump 3), []⟩]

theorem map_id_tangled : tangled.blocks.toList.map Block.id = List.range tangled.blocks.size := by
  decide

/-- Every route to the block behind the loop leads through the side of the loop that leaves it, and
not every one through the other side; the function made from the graph says so. -/
theorem dominates_tangled : ∃ f places ka kb kc, tangled.toSsa = .ok f ∧
    f.Mirrors tangled places ∧ places[ka]? = some 1 ∧ places[kb]? = some 2 ∧
    places[kc]? = some 3 ∧ f.dominates ka kc = true ∧ f.dominates kb kc = false := by
  have hlisted : tangled.Listed :=
    listed_of_edges map_id_tangled (by decide) (by decide) (by decide) (by decide)
  obtain ⟨hsize, -⟩ | ⟨f, places, htoSsa, hmirrors, hdominates⟩ :=
    dominates_toSsa_iff hlisted.targets fun i b => hlisted.mem_preds
  · exact absurd hsize (by decide)
  have hleft : tangled.Route [0] 1 := .step .entry (by decide)
  have hright : tangled.Route [0] 2 := .step .entry (by decide)
  have hback : tangled.Route [0, 1] 3 := .step hleft (by decide)
  obtain ⟨ka, ha⟩ := List.mem_iff_getElem?.mp ((hmirrors.mem_iff 1).mpr ⟨_, hleft⟩)
  obtain ⟨kb, hb⟩ := List.mem_iff_getElem?.mp ((hmirrors.mem_iff 2).mpr ⟨_, hright⟩)
  obtain ⟨kc, hc⟩ := List.mem_iff_getElem?.mp ((hmirrors.mem_iff 3).mpr ⟨_, hback⟩)
  refine ⟨f, places, ka, kb, kc, htoSsa, hmirrors, ha, hb, hc, ?_, ?_⟩
  · rw [hdominates ka kc 1 3 ha hc]
    intro passed hroute
    -- Only two blocks branch to the last one, and none branches to the second of these.
    have honly : ∀ e ∈ tangled.edges, (e.2 = 3 → e.1 = 1 ∨ e.1 = 4) ∧ e.2 ≠ 4 := by decide
    cases hroute with
    | @step before q _ hbefore hq =>
      rcases (honly (q, 3) ((mem_edges_iff map_id_tangled).mpr hq)).1 rfl with rfl | rfl
      · simp
      · cases hbefore with
        | @step _ r _ _ hr =>
          exact absurd rfl (honly (r, 4) ((mem_edges_iff map_id_tangled).mpr hr)).2
  · rw [← Bool.not_eq_true, hdominates kb kc 2 3 hb hc]
    intro hall
    have hmem := hall [0, 1] hback
    exact absurd hmem (by decide)

end Graph

end BlockFlow
