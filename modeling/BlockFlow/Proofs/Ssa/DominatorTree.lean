import BlockFlow.Proofs.Ssa.Frontiers
import BlockFlow.Proofs.Ssa.Visits

/-!
# The tree of a function

Each block of a function in static single assignment form but the first is linked to another one,
and knows the blocks that are linked to it.  These links are a tree with the entry at its root, and
it is the dominator tree of the graph that the function was made from: a block is linked to the
strict dominator that all its strict dominators dominate (`Graph.exists_dominatorTree`).

The links are chosen by counting dominators, and the count is known to find the closest one among
places (`Dominance.exists_idomOf`).  Renaming walks down this tree, and since it is one, comes to
every block once (`Ssa.perm_visits`).
-/

namespace BlockFlow

open Dominance

namespace Graph

variable {g : Graph}

/-- Every block that a route passes has a route of its own. -/
theorem Route.exists_of_mem {passed : List Nat} {a b : Nat} (hroute : g.Route passed b)
    (ha : a ∈ passed) : ∃ before, g.Route before a := by
  induction hroute with
  | entry => cases ha
  | @step passed b _ hroute _ ih =>
    rcases List.mem_append.mp ha with ha | ha
    · exact ih ha
    · rw [List.mem_singleton] at ha
      exact ⟨passed, ha ▸ hroute⟩

/-- `d` strictly dominates `b`, and every strict dominator of `b` dominates `d`. -/
structure IsIdom (g : Graph) (d b : Nat) : Prop where
  dominates : g.Dominates d b
  ne : d ≠ b
  closest : ∀ c, g.Dominates c b → c ≠ b → g.Dominates c d

end Graph

namespace SsaFunction

/-- Links to immediate dominators lead from one block to another. -/
inductive LeadsUp (f : SsaFunction) : (below above : Nat) → Prop where
  | here (k : Nat) : LeadsUp f k k
  | up {k next top : Nat} {b : SsaBlock} (hb : f.blocks[k]? = some b) (hidom : b.idom = some next)
      (h : LeadsUp f next top) : LeadsUp f k top

/-- The visits of a walk down the whole tree of a function. -/
def visits (f : SsaFunction) : List Ssa.Visit :=
  Ssa.visits f.blocks f.blocks.size 0

/-- The links between the blocks of a function are the dominator tree of a graph, the blocks of
which the function has at the given places. -/
structure IsDominatorTree (f : SsaFunction) (g : Graph) (places : List Nat) : Prop where
  entry : places[0]? = some 0
  root : ∀ {b : SsaBlock}, f.blocks[0]? = some b → b.idom = none
  idom : ∀ {k i : Nat} {b : SsaBlock}, places[k]? = some i → i ≠ 0 → f.blocks[k]? = some b →
    ∃ kd d, b.idom = some kd ∧ places[kd]? = some d ∧ g.IsIdom d i
  leadsUp : ∀ k < f.blocks.size, f.LeadsUp k 0
  children_increasing : ∀ {k : Nat} {b : SsaBlock}, f.blocks[k]? = some b →
    b.children.Pairwise (· < ·)
  mem_children_iff : ∀ {k c : Nat} {b : SsaBlock}, f.blocks[k]? = some b →
    (c ∈ b.children ↔ ∃ b', f.blocks[c]? = some b' ∧ b'.idom = some k)

end SsaFunction

namespace Ssa

variable {g : Graph} {blocks : Array SsaBlock} {b : SsaBlock} {i k : Nat}

/-- Renaming leaves links alone. -/
theorem idom_eq (h : g.Listed) (hshape : SameShape (placed g) blocks) (hb : blocks[k]? = some b) :
    b.idom = (tree (predTable (placed g))).of k := by
  obtain ⟨b₀, hb₀, herase⟩ := hshape.symm.exists_get hb
  obtain ⟨i, block, _, _, rfl⟩ := exists_place h hb₀
  have heq := congrArg SsaBlock.idom herase
  rw [predTable_placed]
  exact heq.symm

/-- **Links are immediate dominators of the graph.** -/
theorem exists_idom (h : g.Listed) (hshape : SameShape (placed g) blocks)
    (hk : (livePlaces g)[k]? = some i) (h0 : i ≠ 0) (hb : blocks[k]? = some b) :
    ∃ kd d, b.idom = some kd ∧ (livePlaces g)[kd]? = some d ∧ g.IsIdom d i := by
  have hconnected := connected_placed h
  have hsize : (predTable (placed g)).size = (livePlaces g).length := by
    rw [size_predTable, size_placed h]
  have hlt : k < (predTable (placed g)).size := hsize ▸ (List.getElem?_eq_some_iff.mp hk).1
  have hk0 : k ≠ 0 := by
    rintro rfl
    exact h0 (Option.some.inj (hk.symm.trans (livePlaces_zero h)))
  obtain ⟨kd, hkd, hidom⟩ := exists_idomOf hconnected hlt hk0
  have hkdlt := hsize ▸ hconnected.lt_of_dominates hlt hidom.dominates
  have hd : (livePlaces g)[kd]? = some (livePlaces g)[kd] := List.getElem?_eq_getElem hkdlt
  refine ⟨kd, (livePlaces g)[kd], ?_, hd, ?_, ?_, ?_⟩
  · rw [idom_eq h hshape hb, of_tree hlt, hkd]
  · exact (dominates_placed_iff h hd hk).mp hidom.dominates
  · intro heq
    exact hidom.ne (place_unique (heq ▸ hd) hk)
  · intro c hdom hne
    -- A strict dominator lies on a route, and so has a place.
    obtain ⟨passed, hroute⟩ := (exists_place_iff h).mp ⟨k, hk⟩
    have hpassed : c ∈ passed := by
      rcases List.mem_append.mp (hdom passed hroute) with hc | hc
      · exact hc
      · exact absurd (List.mem_singleton.mp hc) hne
    obtain ⟨kc, hkc⟩ := (exists_place_iff h).mpr (hroute.exists_of_mem hpassed)
    have hkcne : kc ≠ k := by
      rintro rfl
      exact hne (Option.some.inj (hkc.symm.trans hk))
    exact (dominates_placed_iff h hkc hd).mp
      (hidom.closest kc ((dominates_placed_iff h hkc hk).mpr hdom) hkcne)

/-- **The links of a function form the dominator tree.** -/
theorem isDominatorTree (h : g.Listed) (hshape : SameShape (placed g) blocks) :
    SsaFunction.IsDominatorTree ⟨g.vars, blocks⟩ g (livePlaces g) where
  entry := livePlaces_zero h
  root {b} hb := by
    have hlt : 0 < (predTable (placed g)).size := by
      rw [size_predTable]
      exact size_pos_placed h
    rw [idom_eq h hshape hb, of_tree hlt]
    rfl
  idom hk h0 hb := exists_idom h hshape hk h0 hb
  leadsUp k hk := by
    have hsize : blocks.size = (predTable (placed g)).size := by
      rw [size_predTable, hshape.size_eq]
    refine dominated_induction (P := fun k => SsaFunction.LeadsUp ⟨g.vars, blocks⟩ k 0)
      (connected_placed h) (.here 0) ?_ (hsize ▸ hk) (entry_dominates _ k)
    intro d c hlink _ habove
    have hlt : c < blocks.size := hsize.symm ▸ lt_of_of_tree hlink
    have hb : blocks[c]? = some blocks[c] := Array.getElem?_eq_getElem hlt
    exact .up hb ((idom_eq h hshape hb).trans hlink) habove
  children_increasing {k b} hb := by
    rw [((linked_placed h).congr hshape).children_eq hb]
    exact List.Pairwise.filter _ List.pairwise_lt_range
  mem_children_iff {k c b} hb := by
    rw [((linked_placed h).congr hshape).mem_children hb, hshape.predTable_eq]
    constructor
    · intro hlink
      have hlt : c < blocks.size := by
        rw [hshape.size_eq, ← size_predTable]
        exact lt_of_of_tree hlink
      have hb' : blocks[c]? = some blocks[c] := Array.getElem?_eq_getElem hlt
      exact ⟨blocks[c], hb', (idom_eq h hshape hb').trans hlink⟩
    · rintro ⟨b', hb', hidom⟩
      exact (idom_eq h hshape hb').symm.trans hidom

/-- A function is made by carrying out the visits of its own tree. -/
theorem toSsa_eq_visits (h : g.Listed) (hshape : SameShape (placed g) blocks) :
    g.toSsa = ((SsaFunction.visits ⟨g.vars, blocks⟩).foldlM Walk.perform ⟨placed g, {}⟩).map
      fun w => ⟨g.vars, w.blocks⟩ := by
  have hvisits : SsaFunction.visits ⟨g.vars, blocks⟩ = visits (placed g) (placed g).size 0 := by
    rw [SsaFunction.visits, hshape.visits_eq, hshape.size_eq]
  rw [toSsa_eq h, rename_eq_foldlM, hvisits]
  cases (visits (placed g) (placed g).size 0).foldlM Walk.perform ⟨placed g, {}⟩ <;> rfl

end Ssa

namespace Graph

open Ssa

/-- **Immediate dominators form the dominator tree.**  Take a graph whose branches lead to blocks of
it, and whose blocks list the blocks that branch to them and no others, in any order and however
often.  Unless it has no block at all, it has a static single assignment form, whose blocks stand
for the blocks that can be reached and are linked as the dominator tree of the graph: the entry has
no link, any other block a link to its closest strict dominator; links lead from any block to the
entry; and every block is listed once, in the order of blocks, by the block it is linked to.  The
form is what carrying out the visits down this tree makes, in which every block is entered once and
left once. -/
theorem exists_dominatorTree {g : Graph} (htargets : g.TargetsInRange)
    (hpreds : ∀ i b, g.blocks[i]? = some b → ∀ p, p ∈ b.preds ↔ i ∈ g.successors p) :
    (g.blocks.size = 0 ∧ g.toSsa = .error .noEntry) ∨
    ∃ f places, g.toSsa = .ok f ∧ f.Mirrors g places ∧ f.IsDominatorTree g places ∧
      g.toSsa = (f.visits.foldlM Walk.perform ⟨placed g, {}⟩).map (fun w => ⟨g.vars, w.blocks⟩) ∧
      f.visits.Perm ((List.range f.blocks.size).map .enter ++
        (List.range f.blocks.size).map .leave) := by
  rcases toSsa_eq_noEntry_or_listed htargets fun {i b} => hpreds i b with hempty | h
  · exact .inl hempty
  · right
    obtain ⟨blocks, htoSsa, hshape, -⟩ := exists_toSsa h
    have hpos : 0 < blocks.size := hshape.size_eq.symm ▸ size_pos_placed h
    exact ⟨⟨g.vars, blocks⟩, livePlaces g, htoSsa, mirrors_of_sameShape h hshape,
      isDominatorTree h hshape, toSsa_eq_visits h hshape,
      perm_visits ((linked_placed h).congr hshape) hpos⟩

/-- Whatever leads into the inner loop, or to the assignment before it, has passed the test. -/
theorem test_mem_passed_nested {passed : List Nat} {b : Nat} (hroute : nested.Route passed b) :
    (b = 3 ∨ b = 4 → 2 ∈ passed) ∧ b ≠ 6 := by
  induction hroute with
  | entry => simp
  | @step passed b c _ hc ih =>
    obtain ⟨hmem, hne⟩ := ih
    have honly : ∀ e ∈ nested.edges,
        (e.2 = 3 ∨ e.2 = 4 → e.1 = 2 ∨ e.1 = 3 ∨ e.1 = 4 ∨ e.1 = 6) ∧ e.2 ≠ 6 := by decide
    obtain ⟨hsources, hlost⟩ := honly (b, c) ((mem_edges_iff map_id_nested).mpr hc)
    refine ⟨fun hcases => ?_, hlost⟩
    rw [List.mem_append, List.mem_singleton]
    have hsource := hsources hcases
    by_cases hb : b = 2
    · exact .inr hb.symm
    · exact .inl (hmem (by omega))

/-- Only the test can be the closest strict dominator of these two blocks. -/
theorem IsIdom.eq_test_of_nested {d b : Nat} (hb : b = 3 ∨ b = 4) (h : nested.IsIdom d b) :
    d = 2 := by
  have htest : nested.Dominates 2 b := fun passed hroute =>
    List.mem_append_left [b] ((test_mem_passed_nested hroute).1 hb)
  have hroute : nested.Route [0, 1, 2] b := by
    refine .step (.step (.step .entry (by decide)) (by decide)) ?_
    rcases hb with rfl | rfl <;> decide
  have hmem : d ∈ [0, 1, 2] := by
    rcases List.mem_append.mp (h.dominates _ hroute) with hd | hd
    · exact hd
    · exact absurd (List.mem_singleton.mp hd) h.ne
  have hbelow := h.closest 2 htest (by omega)
  -- The test dominates neither the entry nor the head of the outer loop.
  rw [List.mem_cons, List.mem_cons, List.mem_singleton] at hmem
  rcases hmem with rfl | rfl | rfl
  · exact absurd (hbelow [] .entry) (by decide)
  · exact absurd (hbelow [0] (.step .entry (by decide))) (by decide)
  · rfl

/-- The inner loop has two ways in.  It is linked to the block where they part, past the block on
one of them, and entered once. -/
theorem dominatorTree_nested : ∃ (f : SsaFunction) (places : List Nat) (kTest kSet kInner : Nat)
    (test inner : SsaBlock), nested.toSsa = .ok f ∧ f.Mirrors nested places ∧
    places[kTest]? = some 2 ∧ places[kSet]? = some 3 ∧ places[kInner]? = some 4 ∧
    f.blocks[kTest]? = some test ∧ f.blocks[kInner]? = some inner ∧ inner.idom = some kTest ∧
    kSet ∈ test.children ∧ kInner ∈ test.children ∧ f.LeadsUp kInner 0 ∧
    f.visits.count (.enter kInner) = 1 := by
  obtain ⟨hsize, -⟩ | ⟨f, places, htoSsa, hmirrors, htree, -, hperm⟩ :=
    exists_dominatorTree listed_nested.targets fun _ _ => listed_nested.mem_preds
  · exact absurd hsize (by decide)
  have hset : nested.Route [0, 1, 2] 3 :=
    .step (.step (.step .entry (by decide)) (by decide)) (by decide)
  obtain ⟨kSet, hkSet⟩ := List.mem_iff_getElem?.mp ((hmirrors.mem_iff 3).mpr ⟨_, hset⟩)
  obtain ⟨kInner, hkInner⟩ :=
    List.mem_iff_getElem?.mp ((hmirrors.mem_iff 4).mpr ⟨_, route_nested_inner⟩)
  obtain ⟨_, set, _, hset, _⟩ := hmirrors.block hkSet
  obtain ⟨_, inner, _, hinner, _⟩ := hmirrors.block hkInner
  obtain ⟨kTest, d, hidom, hkTest, hclosest⟩ := htree.idom hkInner (by decide) hinner
  obtain rfl := hclosest.eq_test_of_nested (.inr rfl)
  obtain ⟨_, test, _, htest, _⟩ := hmirrors.block hkTest
  obtain ⟨kTest', d, hidom', hkTest', hclosest'⟩ := htree.idom hkSet (by decide) hset
  obtain rfl := hclosest'.eq_test_of_nested (.inl rfl)
  obtain rfl : kTest = kTest' := by
    have hnodup : places.Nodup := hmirrors.increasing.imp Nat.ne_of_lt
    have hlt := (List.getElem?_eq_some_iff.mp hkTest).1
    exact (List.getElem?_inj hlt hnodup).mp (hkTest.trans hkTest'.symm)
  have hlt : kInner < f.blocks.size := (Array.getElem?_eq_some_iff.mp hinner).1
  refine ⟨f, places, kTest, kSet, kInner, test, inner, htoSsa, hmirrors, hkTest, hkSet, hkInner,
    htest, hinner, hidom, (htree.mem_children_iff htest).mpr ⟨set, hset, hidom'⟩,
    (htree.mem_children_iff htest).mpr ⟨inner, hinner, hidom⟩, htree.leadsUp kInner hlt, ?_⟩
  have henter : ((List.range f.blocks.size).map Visit.enter).count (.enter kInner) = 1 := by
    refine List.count_eq_one_of_mem (List.nodup_range.map fun _ _ heq => Visit.enter.inj heq) ?_
    exact List.mem_map_of_mem (List.mem_range.mpr hlt)
  have hleave : ((List.range f.blocks.size).map Visit.leave).count (.enter kInner) = 0 := by
    rw [List.count_eq_zero]
    simp
  rw [hperm.count_eq, List.count_append, henter, hleave]

end Graph

end BlockFlow
