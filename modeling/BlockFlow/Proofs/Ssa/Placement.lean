import BlockFlow.Ssa.Build
import BlockFlow.Proofs.Dominance.Frontiers
import BlockFlow.Proofs.Lowering.Stages
import BlockFlow.Proofs.Ssa.Renaming

/-!
# Blocks before renaming

The blocks of a graph that can be reached are taken over with new numbers, their places.  In a well
formed graph the places are linked by predecessors and successors as the blocks are by branches
(`Ssa.linked_placed`), every place can be reached, and the entry is the first place.

Phis are put on the iterated frontier of the places that define a variable otherwise
(`Ssa.mem_phiNames_iff`).  So they stand where definitions meet: if a block defines a variable, by a
phi or otherwise, then every block in its frontier has a phi for the variable
(`Ssa.mem_phis_of_mem_frontier`).
-/

namespace BlockFlow

namespace Graph

/-- A graph as lowering makes it: blocks are numbered by place, branches lead to blocks other than
the entry, each block lists the blocks that branch to it, once each and no others, and all variables
that are read or stored are variables of the graph. -/
structure WellFormed (g : Graph) : Prop where
  nonempty : 0 < g.blocks.size
  id_eq : ∀ {i : Nat} {b : Block}, g.blocks[i]? = some b → b.id = i
  targets : g.TargetsInRange
  entry : ∀ i, 0 ∉ g.successors i
  nodup_preds : ∀ {i : Nat} {b : Block}, g.blocks[i]? = some b → b.preds.Nodup
  mem_preds : ∀ {i : Nat} {b : Block}, g.blocks[i]? = some b → ∀ p, p ∈ b.preds ↔ i ∈ g.successors p
  closed : g.Closed

/-- A graph with an entry, whose branches lead to blocks, and whose blocks list the blocks that
branch to them and no others, in any order and however often. -/
structure Listed (g : Graph) : Prop where
  nonempty : 0 < g.blocks.size
  targets : g.TargetsInRange
  mem_preds : ∀ {i : Nat} {b : Block}, g.blocks[i]? = some b → ∀ p, p ∈ b.preds ↔ i ∈ g.successors p

theorem WellFormed.listed {g : Graph} (h : g.WellFormed) : g.Listed :=
  ⟨h.nonempty, h.targets, h.mem_preds⟩

/-- A graph whose branches lead to blocks, and whose blocks list the blocks that branch to them, has
no entry because it has no block at all, or has one. -/
theorem toSsa_eq_noEntry_or_listed {g : Graph} (htargets : g.TargetsInRange)
    (hpreds : ∀ {i : Nat} {b : Block}, g.blocks[i]? = some b →
      ∀ p, p ∈ b.preds ↔ i ∈ g.successors p) :
    (g.blocks.size = 0 ∧ g.toSsa = .error .noEntry) ∨ g.Listed := by
  by_cases hsize : g.blocks.size = 0
  · have hempty : g.blocks.isEmpty = true := Array.isEmpty_iff_size_eq_zero.mpr hsize
    exact .inl ⟨hsize, if_pos hempty⟩
  · exact .inr ⟨Nat.pos_of_ne_zero hsize, htargets, hpreds⟩

section Edges

variable {g : Graph} (hids : g.blocks.toList.map Block.id = List.range g.blocks.size)
include hids

theorem id_eq_of_map_id {i : Nat} {b : Block} (hb : g.blocks[i]? = some b) : b.id = i := by
  obtain ⟨hlt, rfl⟩ := Array.getElem?_eq_some_iff.mp hb
  have hplace := congrArg (·[i]?) hids
  simpa [hlt] using hplace

/-- Where blocks are numbered by place, the branches of the graph say what control may go on with
after a block. -/
theorem mem_edges_iff {i c : Nat} : (i, c) ∈ g.edges ↔ c ∈ g.successors i := by
  unfold edges successors
  rw [List.mem_flatMap]
  constructor
  · rintro ⟨b, hb, hmem⟩
    obtain ⟨target, htarget, heq⟩ := List.mem_map.mp hmem
    cases heq
    obtain ⟨j, hj⟩ := List.mem_iff_getElem?.mp hb
    rw [Array.getElem?_toList] at hj
    rw [id_eq_of_map_id hids hj, hj]
    exact htarget
  · intro hmem
    split at hmem
    · rename_i b hb
      have hlisted : b ∈ g.blocks.toList :=
        List.mem_iff_getElem?.mpr ⟨i, by rw [Array.getElem?_toList, hb]⟩
      exact ⟨b, hlisted, List.mem_map.mpr ⟨c, hmem, by rw [id_eq_of_map_id hids hb]⟩⟩
    · cases hmem

/-- Whether blocks list their predecessors can be told from the branches of the graph. -/
theorem listed_of_edges (hpos : 0 < g.blocks.size)
    (htargets : ∀ e ∈ g.edges, e.2 < g.blocks.size)
    (hpreds : ∀ b ∈ g.blocks.toList, ∀ p ∈ b.preds, (p, b.id) ∈ g.edges)
    (hlists : ∀ b ∈ g.blocks.toList, ∀ e ∈ g.edges, e.2 = b.id → e.1 ∈ b.preds) : g.Listed := by
  refine ⟨hpos, fun i c hc => htargets (i, c) ((mem_edges_iff hids).mpr hc), fun {i b} hb p => ?_⟩
  have hmem : b ∈ g.blocks.toList :=
    List.mem_iff_getElem?.mpr ⟨i, by rw [Array.getElem?_toList, hb]⟩
  have hid := id_eq_of_map_id hids hb
  rw [← mem_edges_iff hids]
  exact ⟨fun hp => hid ▸ hpreds b hmem p hp, fun he => hlists b hmem (p, i) he hid.symm⟩

end Edges

/-- The predecessors of a block that can be reached, in the order in which the block lists them. -/
def livePreds (g : Graph) (i : Nat) : List Nat :=
  match g.blocks[i]? with
  | some b => b.preds.filter fun p => g.reachable.contains p
  | none => []

end Graph

namespace Ssa

open Dominance

variable {g : Graph} {i j k : Nat}

/-! ### Places -/

theorem nodup_livePlaces (g : Graph) : (livePlaces g).Nodup :=
  List.Nodup.filter _ List.nodup_range

theorem idxOf?_eq_some_iff {places : List Nat} (h : places.Nodup) :
    places.idxOf? i = some k ↔ places[k]? = some i := by
  constructor
  · exact getElem?_of_idxOf?
  · intro hk
    obtain ⟨m, hm⟩ := Option.isSome_iff_exists.mp (List.isSome_idxOf?.mpr (List.mem_of_getElem? hk))
    obtain ⟨hlt, _⟩ := List.getElem?_eq_some_iff.mp hk
    rw [hm, (List.getElem?_inj hlt h).mp (hk.trans (getElem?_of_idxOf? hm).symm)]

theorem place_unique (hj : (livePlaces g)[j]? = some i) (hk : (livePlaces g)[k]? = some i) :
    j = k :=
  (List.getElem?_inj (List.getElem?_eq_some_iff.mp hj).1 (nodup_livePlaces g)).mp
    (hj.trans hk.symm)

theorem mem_livePlaces (h : g.Listed) : i ∈ livePlaces g ↔ i ∈ g.reachable := by
  have hrange := (Graph.explored_reachable h.targets h.nonempty).1.inRange
  rw [livePlaces, List.mem_filter, List.mem_range, List.contains_iff_mem]
  exact ⟨fun hi => hi.2, fun hi => ⟨hrange i hi, hi⟩⟩

/-- The blocks that have a place are those that routes lead to. -/
theorem exists_place_iff (h : g.Listed) :
    (∃ k : Nat, (livePlaces g)[k]? = some i) ↔ ∃ passed, g.Route passed i := by
  rw [← Graph.mem_reachable_iff h.targets h.nonempty, ← mem_livePlaces h, List.mem_iff_getElem?]

theorem livePlaces_zero (h : g.Listed) : (livePlaces g)[0]? = some 0 := by
  have hentry := (Graph.explored_reachable h.targets h.nonempty).2
  obtain ⟨n, hn⟩ : ∃ n, g.blocks.size = n + 1 := ⟨g.blocks.size - 1, by have := h.nonempty; omega⟩
  rw [livePlaces, hn, List.range_succ_eq_map,
    List.filter_cons_of_pos (List.contains_iff_mem.mpr hentry)]
  rfl

theorem exists_block_of_place (h : g.Listed) (hk : (livePlaces g)[k]? = some i) :
    ∃ block, g.blocks[i]? = some block := by
  have hmem := (mem_livePlaces h).mp (List.mem_of_getElem? hk)
  have hlt := (Graph.explored_reachable h.targets h.nonempty).1.inRange i hmem
  exact ⟨g.blocks[i], Array.getElem?_eq_getElem hlt⟩

/-! ### The blocks taken over -/

theorem toList_liveBlocks (h : g.Listed) : g.liveBlocks.toList =
    (livePlaces g).map fun i => takeOver g.vars (livePlaces g) (g.blocks[i]?.getD default) := by
  rw [Graph.liveBlocks, List.toList_toArray]
  refine List.filterMap_eq_map_iff_forall_eq_some.mpr fun i hi => ?_
  obtain ⟨k, hk⟩ := List.mem_iff_getElem?.mp hi
  obtain ⟨block, hblock⟩ := exists_block_of_place h hk
  rw [hblock]
  rfl

theorem getElem?_liveBlocks (h : g.Listed) (k : Nat) : g.liveBlocks[k]? =
    (livePlaces g)[k]?.map fun i => takeOver g.vars (livePlaces g) (g.blocks[i]?.getD default) := by
  rw [← Array.getElem?_toList, toList_liveBlocks h, List.getElem?_map]

theorem liveBlocks_of_place (h : g.Listed) {block : Block}
    (hk : (livePlaces g)[k]? = some i) (hblock : g.blocks[i]? = some block) :
    g.liveBlocks[k]? = some (takeOver g.vars (livePlaces g) block) := by
  rw [getElem?_liveBlocks h, hk, Option.map_some, hblock, Option.getD_some]

/-- The blocks with what is known of dominance and with their phis, before renaming. -/
def placed (g : Graph) : Array SsaBlock :=
  withPhis g.vars (withDominance g.liveBlocks)

/-- The frontiers by place. -/
def frontierTable (g : Graph) : Table :=
  (withDominance g.liveBlocks).map SsaBlock.frontier

/-- The variables that get a phi at a place. -/
def phiNames (g : Graph) (k : Nat) : List String :=
  g.vars.filter fun name =>
    (iteratedFrontier (frontierTable g)
      (definingPlaces name (withDominance g.liveBlocks))).contains k

/-- A block as it stands before renaming. -/
def placedBlock (g : Graph) (k : Nat) (block : Block) : SsaBlock :=
  let preds := block.preds.filterMap fun p => (livePlaces g).idxOf? p
  { id := block.id
    name := block.name
    preds := preds
    succs := block.successors.filterMap fun s => (livePlaces g).idxOf? s
    phis := (phiNames g k).map fun name => phiOf name preds.length
    instrs := instrsOf g.vars block
    dominators := (dominators (predTable g.liveBlocks)).of k
    idom := (tree (predTable g.liveBlocks)).of k
    children := (tree (predTable g.liveBlocks)).childrenOf k
    frontier := (frontiers (predTable g.liveBlocks) (tree (predTable g.liveBlocks))).of k }

theorem getElem?_withDominance (blocks : Array SsaBlock) (k : Nat) :
    (withDominance blocks)[k]? = blocks[k]?.map fun b =>
      { b with
        dominators := (dominators (predTable blocks)).of k
        idom := (tree (predTable blocks)).of k
        children := (tree (predTable blocks)).childrenOf k
        frontier := (frontiers (predTable blocks) (tree (predTable blocks))).of k } := by
  rw [withDominance, Array.getElem?_mapIdx]
  rfl

theorem getElem?_placed (h : g.Listed) {block : Block} (hk : (livePlaces g)[k]? = some i)
    (hblock : g.blocks[i]? = some block) : (placed g)[k]? = some (placedBlock g k block) := by
  have hnames : ((phiPlaces g.vars (withDominance g.liveBlocks)).filter fun entry =>
      entry.2.contains k).map Prod.fst = phiNames g k := by
    rw [phiPlaces, List.filter_map, List.map_map]
    exact List.map_id' _
  rw [placed, withPhis, Array.getElem?_mapIdx, getElem?_withDominance,
    liveBlocks_of_place h hk hblock]
  simp only [Option.map_some, hnames]
  rfl

/-- Every place before renaming holds a block of the graph. -/
theorem exists_place (h : g.Listed) {b : SsaBlock} (hb : (placed g)[k]? = some b) :
    ∃ i block, (livePlaces g)[k]? = some i ∧ g.blocks[i]? = some block ∧
      b = placedBlock g k block := by
  have hlive : ∃ b', g.liveBlocks[k]? = some b' := by
    rw [placed, withPhis, Array.getElem?_mapIdx, getElem?_withDominance] at hb
    cases hlive : g.liveBlocks[k]? with
    | none =>
      rw [hlive] at hb
      cases hb
    | some b' => exact ⟨b', rfl⟩
  obtain ⟨b', hb'⟩ := hlive
  rw [getElem?_liveBlocks h] at hb'
  obtain ⟨i, hi, _⟩ := Option.map_eq_some_iff.mp hb'
  obtain ⟨block, hblock⟩ := exists_block_of_place h hi
  exact ⟨i, block, hi, hblock, Option.some.inj (hb.symm.trans (getElem?_placed h hi hblock))⟩

theorem predTable_placed (g : Graph) : predTable (placed g) = predTable g.liveBlocks := by
  refine Array.ext_getElem? fun k => ?_
  rw [predTable, predTable, Array.getElem?_map, Array.getElem?_map, placed, withPhis,
    Array.getElem?_mapIdx, getElem?_withDominance]
  cases g.liveBlocks[k]? <;> rfl

/-! ### Links -/

/-- A branch between blocks is a link between their places. -/
theorem mem_preds_of_mem_successors (h : g.Listed) {c k' : Nat} {block : Block}
    (hk : (livePlaces g)[k]? = some i) (hblock : g.blocks[c]? = some block)
    (hc : c ∈ g.successors i) :
    k ∈ (placedBlock g k' block).preds :=
  List.mem_filterMap.mpr ⟨i, (h.mem_preds hblock i).mpr hc,
    (idxOf?_eq_some_iff (nodup_livePlaces g)).mpr hk⟩

theorem exists_of_mem_succs {s : Nat} {block : Block} (hblock : g.blocks[i]? = some block)
    (hs : s ∈ (placedBlock g k block).succs) :
    ∃ c ∈ g.successors i, (livePlaces g)[s]? = some c := by
  obtain ⟨c, hc, hidx⟩ := List.mem_filterMap.mp hs
  refine ⟨c, ?_, getElem?_of_idxOf? hidx⟩
  rw [Graph.successors, hblock]
  exact hc

theorem of_predTable_placed (h : g.Listed) {block : Block}
    (hk : (livePlaces g)[k]? = some i) (hblock : g.blocks[i]? = some block) :
    (predTable (placed g)).of k = (placedBlock g k block).preds :=
  of_predTable (getElem?_placed h hk hblock)

/-- The places that lead to a place are those of the blocks that branch to its block. -/
theorem mem_predTable_iff (h : g.Listed) (hk : (livePlaces g)[k]? = some i) :
    j ∈ (predTable (placed g)).of k ↔ ∃ p, (livePlaces g)[j]? = some p ∧ i ∈ g.successors p := by
  obtain ⟨block, hblock⟩ := exists_block_of_place h hk
  rw [of_predTable_placed h hk hblock]
  constructor
  · intro hmem
    obtain ⟨p, hp, hidx⟩ := List.mem_filterMap.mp hmem
    exact ⟨p, getElem?_of_idxOf? hidx, (h.mem_preds hblock p).mp hp⟩
  · rintro ⟨p, hp, hbranch⟩
    exact mem_preds_of_mem_successors h hp hblock hbranch

theorem size_placed (h : g.Listed) : (placed g).size = (livePlaces g).length := by
  rw [placed, withPhis, Array.size_mapIdx, withDominance, Array.size_mapIdx,
    ← Array.length_toList, toList_liveBlocks h, List.length_map]

/-- A route leads, place by place, to the place of its last block. -/
theorem way_of_route (h : g.Listed) {P : Nat → Prop} {passed : List Nat} (hroute : g.Route passed i)
    (hall : ∀ j ∈ passed ++ [i], P j) (hk : (livePlaces g)[k]? = some i) :
    Way (predTable (placed g)) (fun m => ∀ j, (livePlaces g)[m]? = some j → P j) k := by
  have hhere : ∀ j, (livePlaces g)[k]? = some j → P j := by
    intro j hj
    rw [hk] at hj
    exact Option.some.inj hj ▸ hall i (List.mem_append_right passed (List.mem_singleton.mpr rfl))
  induction hroute generalizing k with
  | entry =>
    have hzero : k = 0 := place_unique hk (livePlaces_zero h)
    subst hzero
    exact .entry hhere
  | @step passed i c hroute hc ih =>
    have hbefore : ∀ j ∈ passed ++ [i], P j := fun j hj => hall j (List.mem_append_left [c] hj)
    obtain ⟨m, hm⟩ := (exists_place_iff h).mpr ⟨passed, hroute⟩
    have hway := ih hbefore hm fun j hj => by
      rw [hm] at hj
      exact Option.some.inj hj ▸
        hbefore i (List.mem_append_right passed (List.mem_singleton.mpr rfl))
    exact hway.step ((mem_predTable_iff h hk).mpr ⟨i, hm, hc⟩) hhere

/-- Every place can be reached along the links. -/
theorem connected_placed (h : g.Listed) : Connected (predTable (placed g)) := by
  constructor
  · intro k p hp
    rw [size_predTable, size_placed h]
    cases hb : (placed g)[k]? with
    | none =>
      rw [predTable, Table.of, Array.getElem?_map, hb] at hp
      cases hp
    | some b =>
      obtain ⟨i, block, hi, hblock, rfl⟩ := exists_place h hb
      rw [of_predTable_placed h hi hblock] at hp
      obtain ⟨q, _, hq⟩ := List.mem_filterMap.mp hp
      exact (List.getElem?_eq_some_iff.mp (getElem?_of_idxOf? hq)).1
  · intro k hk
    rw [size_predTable, size_placed h] at hk
    obtain ⟨passed, hroute⟩ := (exists_place_iff h).mp ⟨k, List.getElem?_eq_getElem hk⟩
    have hway := way_of_route h (P := fun _ => True) hroute (fun _ _ => trivial)
      (List.getElem?_eq_getElem hk)
    exact hway.mono fun _ _ => trivial

/-- **The blocks are linked** as renaming needs them. -/
theorem linked_placed (h : g.Listed) : Linked (placed g) where
  connected := connected_placed h
  children_eq := by
    intro k b hb
    obtain ⟨i, block, _, _, rfl⟩ := exists_place h hb
    rw [predTable_placed]
    rfl
  listed := by
    intro k b hb s hs
    obtain ⟨i, block, hk, hblock, rfl⟩ := exists_place h hb
    obtain ⟨c, hc, hk'⟩ := exists_of_mem_succs hblock hs
    obtain ⟨block', hblock'⟩ := exists_block_of_place h hk'
    exact ⟨_, getElem?_placed h hk' hblock', mem_preds_of_mem_successors h hk hblock' hc⟩

theorem size_pos_placed (h : g.Listed) : 0 < (placed g).size := by
  rw [size_placed h]
  exact (List.getElem?_eq_some_iff.mp (livePlaces_zero h)).1

/-- The blocks of a function are the placed blocks, renamed. -/
theorem toSsa_eq (h : g.Listed) :
    g.toSsa = (rename (placed g)).map fun blocks => ⟨g.vars, blocks⟩ := by
  have hempty : g.blocks.isEmpty = false := by
    have hnonempty := h.nonempty
    rw [Array.isEmpty_eq_false_iff]
    rintro hnil
    rw [hnil] at hnonempty
    exact absurd hnonempty (Nat.lt_irrefl 0)
  rw [Graph.toSsa, hempty]
  show (rename (placed g)).bind _ = _
  cases rename (placed g) <;> rfl

/-- **A graph that lists its predecessors has a static single assignment form:** the blocks before
renaming with numbers given to versions, as they are visible along the dominator tree. -/
theorem exists_toSsa (h : g.Listed) : ∃ blocks, g.toSsa = .ok ⟨g.vars, blocks⟩ ∧
    SameShape (placed g) blocks ∧ Labelled blocks 0 [] := by
  obtain ⟨blocks, hrename, hshape, hlabelled⟩ :=
    exists_rename (linked_placed h) (size_pos_placed h)
  refine ⟨blocks, ?_, hshape, hlabelled⟩
  rw [toSsa_eq h, hrename]
  rfl

/-- A block of the function is what has become of the block of the graph that has its place. -/
theorem exists_source (h : g.Listed) {blocks : Array SsaBlock}
    (hshape : SameShape (placed g) blocks) (hk : (livePlaces g)[k]? = some i) {b : SsaBlock}
    (hb : blocks[k]? = some b) :
    ∃ block, g.blocks[i]? = some block ∧ b.erase = (placedBlock g k block).erase := by
  obtain ⟨block, hblock⟩ := exists_block_of_place h hk
  obtain ⟨renamed, hrenamed, herase⟩ := hshape.exists_get (getElem?_placed h hk hblock)
  obtain rfl : renamed = b := Option.some.inj (hrenamed.symm.trans hb)
  exact ⟨block, hblock, herase⟩

theorem isSome_idxOf?_livePlaces (h : g.Listed) (p : Nat) :
    ((livePlaces g).idxOf? p).isSome = g.reachable.contains p := by
  rw [Bool.eq_iff_iff, List.isSome_idxOf?, List.contains_iff_mem, mem_livePlaces h]

theorem filterMap_eq_map_filter {α β : Type} (f : α → Option β) (default : β) (l : List α) :
    l.filterMap f = (l.filter fun a => (f a).isSome).map fun a => (f a).getD default := by
  induction l with
  | nil => rfl
  | cons a rest ih =>
    cases h : f a with
    | none => simp [h, ih]
    | some b => simp [h, ih]

/-- The predecessors of a place are the places of the predecessors that can be reached. -/
theorem preds_placedBlock (h : g.Listed) {block : Block} (hblock : g.blocks[i]? = some block) :
    (placedBlock g k block).preds =
      (g.livePreds i).map fun p => ((livePlaces g).idxOf? p).getD 0 := by
  have hfilter : g.livePreds i =
      block.preds.filter fun p => ((livePlaces g).idxOf? p).isSome := by
    simp only [Graph.livePreds, hblock, isSome_idxOf?_livePlaces h]
  rw [placedBlock, filterMap_eq_map_filter _ 0, ← hfilter]

theorem getElem?_preds (h : g.Listed) {block : Block} {p m : Nat}
    (hblock : g.blocks[i]? = some block) (hp : (g.livePreds i)[m]? = some p)
    (hj : (livePlaces g)[j]? = some p) : (placedBlock g k block).preds[m]? = some j := by
  rw [preds_placedBlock h hblock, List.getElem?_map, hp, Option.map_some,
    (idxOf?_eq_some_iff (nodup_livePlaces g)).mpr hj, Option.getD_some]

theorem nodup_preds (h : g.WellFormed) {block : Block} (hblock : g.blocks[i]? = some block) :
    (placedBlock g k block).preds.Nodup := by
  refine List.Nodup.filterMap (fun p q m hp hq => ?_) (h.nodup_preds hblock)
  exact Option.some.inj ((getElem?_of_idxOf? hp).symm.trans (getElem?_of_idxOf? hq))

/-! ### Instructions -/

theorem erase_placedBlock (g : Graph) (k : Nat) (block : Block) :
    (placedBlock g k block).erase = placedBlock g k block := by
  have huses : ∀ e : Expr, (usesOf e).map Version.erase = usesOf e := by
    intro e
    rw [usesOf, List.map_map]
    rfl
  have hinstrs : (instrsOf g.vars block).map Instr.erase = instrsOf g.vars block := by
    have hterm : (terminatorInstrs block.term).map Instr.erase = terminatorInstrs block.term := by
      unfold terminatorInstrs
      split <;> simp [Instr.erase, huses]
    have hstores : (block.stores.map storeInstr).map Instr.erase = block.stores.map storeInstr := by
      rw [List.map_map]
      refine List.map_congr_left fun s _ => ?_
      simp [Instr.erase, storeInstr, huses, Version.erase]
    unfold instrsOf
    rw [List.map_append, List.map_append, hterm, hstores]
    split
    · rw [List.map_map]
      rfl
    · rfl
  have hphis : (placedBlock g k block).phis.map Instr.erase = (placedBlock g k block).phis := by
    rw [placedBlock, List.map_map]
    refine List.map_congr_left fun name _ => ?_
    simp [Instr.erase, phiOf, Version.erase]
  rw [SsaBlock.erase, hphis]
  exact congrArg (fun instrs => { placedBlock g k block with instrs := instrs }) hinstrs

/-- All variables that the instructions of a block read are variables of the graph. -/
theorem mem_vars_of_mem_uses (h : g.WellFormed) {block : Block} {instr : Instr} {use : Version}
    (hblock : g.blocks[i]? = some block) (hinstr : instr ∈ instrsOf g.vars block)
    (huse : use ∈ instr.uses) : use.name ∈ g.vars := by
  have hbody : g.body? i = some (block.stores, block.term) := by
    rw [Graph.body?, hblock]
    rfl
  obtain ⟨hstores, hterm⟩ := h.closed i block.stores block.term hbody
  rw [instrsOf, List.mem_append, List.mem_append] at hinstr
  rcases hinstr with (halloca | hstore) | hend
  · split at halloca
    · obtain ⟨name, _, rfl⟩ := List.mem_map.mp halloca
      cases huse
    · cases halloca
  · obtain ⟨s, hs, rfl⟩ := List.mem_map.mp hstore
    obtain ⟨name, hname, rfl⟩ := List.mem_map.mp huse
    exact (hstores s hs).2 name hname
  · unfold terminatorInstrs at hend
    split at hend
    · next cond onTrue onFalse heq =>
      rw [List.mem_singleton.mp hend] at huse
      obtain ⟨name, hname, rfl⟩ := List.mem_map.mp huse
      exact hterm _ heq name hname
    · next value heq =>
      rw [List.mem_singleton.mp hend] at huse
      obtain ⟨name, hname, rfl⟩ := List.mem_map.mp huse
      exact hterm _ heq name hname
    · cases hend

/-- The instructions that make room for variables. -/
def allocas (vars : List String) : List Instr :=
  vars.map fun name => ⟨.alloca, some ⟨name, 0⟩, []⟩

theorem names_targets_allocas (vars : List String) :
    (targets (allocas vars)).map Version.name = vars := by
  rw [targets, allocas, List.filterMap_map, List.map_filterMap]
  exact List.filterMap_some

theorem mem_targets_allocas {vars : List String} {name : String} (hname : name ∈ vars) :
    name ∈ (targets (allocas vars)).map Version.name := by
  rw [names_targets_allocas]
  exact hname

theorem instrsOf_entry {vars : List String} {block : Block} (hid : block.id = 0) :
    instrsOf vars block =
      allocas vars ++ (block.stores.map storeInstr ++ terminatorInstrs block.term) := by
  rw [instrsOf, if_pos hid, List.append_assoc]
  rfl

/-- The entry defines all variables before it reads any. -/
theorem mem_targets_before {vars : List String} {block : Block} (hid : block.id = 0)
    {before after : List Instr} {instr : Instr} {use : Version}
    (heq : instrsOf vars block = before ++ instr :: after) (huse : use ∈ instr.uses) {name : String}
    (hname : name ∈ vars) : name ∈ (targets before).map Version.name := by
  rw [instrsOf_entry hid] at heq
  rcases List.append_eq_append_iff.mp heq with ⟨rest, hbefore, _⟩ | ⟨rest, hallocas, hrest⟩
  · rw [hbefore, targets_append, List.map_append]
    exact List.mem_append_left _ (mem_targets_allocas hname)
  · cases rest with
    | nil =>
      rw [List.append_nil] at hallocas
      rw [← hallocas]
      exact mem_targets_allocas hname
    | cons first rest =>
      -- An instruction among those that make room reads nothing.
      have hmem : instr ∈ allocas vars := by
        rw [hallocas, (List.cons.inj hrest).1]
        exact List.mem_append_right before List.mem_cons_self
      obtain ⟨_, _, rfl⟩ := List.mem_map.mp hmem
      cases huse

theorem mem_targets_entry {vars : List String} {block : Block} (hid : block.id = 0) {name : String}
    (hname : name ∈ vars) : name ∈ (targets (instrsOf vars block)).map Version.name := by
  rw [instrsOf_entry hid, targets_append, List.map_append]
  exact List.mem_append_left _ (mem_targets_allocas hname)

/-! ### Phis -/

theorem names_phis (g : Graph) (k : Nat) (block : Block) :
    (targets (placedBlock g k block).phis).map Version.name = phiNames g k := by
  rw [targets, placedBlock, List.filterMap_map, List.map_filterMap]
  exact List.filterMap_some

/-- Renaming leaves the phis as they were placed, numbers of versions apart. -/
theorem erase_phis {b : SsaBlock} {block : Block}
    (h : b.erase = (placedBlock g k block).erase) : b.phis.map Instr.erase =
      (phiNames g k).map fun name => phiOf name b.preds.length := by
  rw [SsaBlock.preds_eq_of_erase h]
  exact congrArg SsaBlock.phis (h.trans (erase_placedBlock g k block))

/-- A phi defines its variable from one version of the variable for each predecessor. -/
theorem exists_target_of_mem_phis {b : SsaBlock} {block : Block}
    (h : b.erase = (placedBlock g k block).erase) {phi : Instr} (hphi : phi ∈ b.phis) :
    phi.kind = .phi ∧ ∃ target, phi.target = some target ∧ target.name ∈ phiNames g k ∧
      phi.uses.map Version.name = List.replicate b.preds.length target.name := by
  have hmem : phi.erase ∈ b.phis.map Instr.erase := List.mem_map_of_mem hphi
  rw [erase_phis h] at hmem
  obtain ⟨name, hname, heq⟩ := List.mem_map.mp hmem
  obtain ⟨target, htarget, hversion⟩ :=
    Option.map_eq_some_iff.mp (congrArg Instr.target heq).symm
  obtain rfl : target.name = name := congrArg Version.name hversion
  have huses := congrArg (fun instr : Instr => instr.uses.map Version.name) heq
  simp only [phiOf, Instr.erase, List.map_map, List.map_replicate] at huses
  exact ⟨(congrArg Instr.kind heq).symm, target, htarget, hname, huses.symm⟩

theorem frontierTable_eq (g : Graph) : frontierTable g =
    frontiers (predTable (placed g)) (tree (predTable (placed g))) := by
  rw [predTable_placed]
  have hsize : (frontierTable g).size = g.liveBlocks.size := by
    rw [frontierTable, Array.size_map, withDominance, Array.size_mapIdx]
  refine Table.ext ?_ fun k hk => ?_
  · rw [hsize, size_frontiers, size_predTable]
  · rw [hsize] at hk
    rw [Table.of, frontierTable, Array.getElem?_map, getElem?_withDominance,
      Array.getElem?_eq_getElem hk]
    rfl

theorem mem_definingPlaces_iff {name : String} {block : Block} (h : g.Listed)
    (hk : (livePlaces g)[k]? = some i) (hblock : g.blocks[i]? = some block) :
    k ∈ definingPlaces name (withDominance g.liveBlocks) ↔
      name ∈ (targets (instrsOf g.vars block)).map Version.name := by
  have hget := getElem?_withDominance g.liveBlocks k
  rw [liveBlocks_of_place h hk hblock] at hget
  obtain ⟨hlt, _⟩ := Array.getElem?_eq_some_iff.mp hget
  rw [definingPlaces, List.mem_filter, hget, List.mem_range]
  show _ ∧ ((instrsOf g.vars block).any fun instr =>
    (instr.target.map Version.name) == some name) = true ↔ _
  rw [List.any_eq_true]
  constructor
  · rintro ⟨_, instr, hinstr, hname⟩
    obtain ⟨v, htarget, rfl⟩ := Option.map_eq_some_iff.mp (beq_iff_eq.mp hname)
    exact List.mem_map_of_mem (List.mem_filterMap.mpr ⟨instr, hinstr, htarget⟩)
  · intro hname
    obtain ⟨v, hv, rfl⟩ := List.mem_map.mp hname
    obtain ⟨instr, hinstr, htarget⟩ := List.mem_filterMap.mp hv
    refine ⟨hlt, instr, hinstr, ?_⟩
    rw [htarget]
    exact beq_self_eq_true _

theorem nodup_definingPlaces (name : String) (blocks : Array SsaBlock) :
    (definingPlaces name blocks).Nodup :=
  List.Nodup.filter _ List.nodup_range

theorem lt_size_of_mem_definingPlaces {name : String} :
    ∀ d ∈ definingPlaces name (withDominance g.liveBlocks), d < (frontierTable g).size := by
  intro d hd
  rw [frontierTable, Array.size_map]
  exact List.mem_range.mp (List.mem_filter.mp hd).1

theorem lt_size_of_mem_frontierTable :
    ∀ b, ∀ y ∈ (frontierTable g).of b, y < (frontierTable g).size := by
  intro b y hy
  rw [frontierTable_eq] at hy ⊢
  rw [size_frontiers]
  exact (mem_frontiers.mp hy).2.1

/-- **Phis stand on the iterated frontier** of the places that define a variable otherwise. -/
theorem mem_phiNames_iff {name : String} : name ∈ phiNames g k ↔ name ∈ g.vars ∧
    InIteratedFrontier
      (fun d y => y ∈ (frontiers (predTable (placed g)) (tree (predTable (placed g)))).of d)
      (· ∈ definingPlaces name (withDominance g.liveBlocks)) k := by
  rw [phiNames, List.mem_filter, List.contains_iff_mem,
    mem_iteratedFrontier_iff (nodup_definingPlaces name _) lt_size_of_mem_definingPlaces
      lt_size_of_mem_frontierTable, frontierTable_eq]

/-- **Phis stand where definitions meet.** -/
theorem mem_phis_of_mem_frontier (h : g.Listed) {name : String} {block block' : Block}
    {k' : Nat} (hname : name ∈ g.vars) (hk : (livePlaces g)[k]? = some i)
    (hblock : g.blocks[i]? = some block)
    (hdefined : name ∈ (placedBlock g k block).definitions.map Version.name)
    (hfrontier : k' ∈ (frontiers (predTable (placed g)) (tree (predTable (placed g)))).of k) :
    name ∈ (targets (placedBlock g k' block').phis).map Version.name := by
  rw [names_phis, mem_phiNames_iff]
  refine ⟨hname, ?_⟩
  rw [definitions_eq, List.map_append, List.mem_append] at hdefined
  rcases hdefined with hphi | hinstr
  · rw [names_phis, mem_phiNames_iff] at hphi
    exact .of_found hphi.2 hfrontier
  · exact .of_start ((mem_definingPlaces_iff h hk hblock).mpr hinstr) hfrontier

end Ssa

end BlockFlow
