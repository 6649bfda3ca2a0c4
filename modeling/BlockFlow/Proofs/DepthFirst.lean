import BlockFlow.Proofs.Reachability

/-!
# The order of the search

`Graph.reachable` lists blocks in depth-first preorder, which is said here without the search
(`Graph.DepthFirst`).  Behind each block stands what lies below it, one part for each of its
successors and in their order.  The part of a successor holds the blocks to which a way leads from
it that meets none of the blocks listed before the part, and begins with the successor itself; it is
empty if the successor was listed before.  So a block is listed below the first successor from which
it can be found, and before the next one is looked at.

A way that meets no listed block either ends in the part listed next or meets no block of that part
at all (`FreeWay.mem_or_append`).  Therefore the parts below a block together hold whatever can be
found from it (`Parts.mem_iff`), which is what the search is shown to list (`visit_part`).  The
order leaves no choice: a list in depth-first preorder is the one that the search gives
(`DepthFirst.visit_eq`).
-/

namespace BlockFlow

/-- Two beginnings of a list without duplicates are the same if they hold the same. -/
theorem eq_of_isPrefix_of_mem_iff {α : Type} {first first' whole : List α} (hnodup : whole.Nodup)
    (h : first <+: whole) (h' : first' <+: whole) (hmem : ∀ a, a ∈ first ↔ a ∈ first') :
    first = first' := by
  have hperm : first.Perm first' := (List.perm_ext_iff_of_nodup (hnodup.sublist h.sublist)
    (hnodup.sublist h'.sublist)).mpr hmem
  have hlength := hperm.length_eq
  exact (List.prefix_of_prefix_length_le h h' (Nat.le_of_eq hlength)).eq_of_length hlength

namespace Graph

/-- Control can get from a block to another and meet no listed block: neither of the two is listed,
nor is any block on the way. -/
inductive FreeWay (g : Graph) (listed : List Nat) (b : Nat) : Nat → Prop where
  | start (h : b ∉ listed) : FreeWay g listed b b
  | step {c d : Nat} (h : FreeWay g listed b c) (hd : d ∈ g.successors c) (hfree : d ∉ listed) :
      FreeWay g listed b d

/-- What is listed for a block behind the blocks listed so far: all to which free ways lead, the
block itself first. -/
structure Part (g : Graph) (listed : List Nat) (b : Nat) (part : List Nat) : Prop where
  first : b ∉ listed → part.head? = some b
  mem_iff : ∀ c, c ∈ part ↔ g.FreeWay listed b c

/-- What is listed for several blocks, a part for each and in their order. -/
inductive Parts (g : Graph) : (listed blocks below : List Nat) → Prop where
  | nil {listed : List Nat} : Parts g listed [] []
  | cons {listed rest part below : List Nat} {b : Nat} (hpart : g.Part listed b part)
      (hrest : Parts g (listed ++ part) rest below) : Parts g listed (b :: rest) (part ++ below)

/-- The blocks that can be reached from the entry, in depth-first preorder. -/
structure DepthFirst (g : Graph) (order : List Nat) : Prop where
  nodup : order.Nodup
  first : order.head? = some 0
  mem_iff : ∀ b, b ∈ order ↔ ∃ passed, g.Route passed b
  /-- Every block but the first is a successor of an earlier one. -/
  succeeds : ∀ before b after, order = before ++ b :: after → before ≠ [] →
    ∃ a ∈ before, b ∈ g.successors a
  /-- Behind every block stand the parts of its successors. -/
  below : ∀ before b after, order = before ++ b :: after →
    ∃ below, below <+: after ∧ g.Parts (before ++ [b]) (g.successors b) below

variable {g : Graph} {listed part below : List Nat} {b c : Nat}

/-! ### Free ways -/

namespace FreeWay

theorem start_notMem (h : g.FreeWay listed b c) : b ∉ listed := by
  induction h with
  | start h => exact h
  | step _ _ _ ih => exact ih

theorem mono {listed' : List Nat} (h : g.FreeWay listed b c) (hsubset : listed' ⊆ listed) :
    g.FreeWay listed' b c := by
  induction h with
  | start h => exact .start fun hb => h (hsubset hb)
  | step _ hd hfree ih => exact ih.step hd fun hmem => hfree (hsubset hmem)

theorem trans {d : Nat} (h : g.FreeWay listed b c) (h' : g.FreeWay listed c d) :
    g.FreeWay listed b d := by
  induction h' with
  | start => exact h
  | step _ hd hfree ih => exact ih.step hd hfree

/-- A free way begins with a step to a successor, unless it ends where it begins, and need not come
back. -/
theorem iff_successor (hb : b ∉ listed) :
    g.FreeWay listed b c ↔ c = b ∨ ∃ s ∈ g.successors b, g.FreeWay (listed ++ [b]) s c := by
  constructor
  · intro h
    induction h with
    | start => exact .inl rfl
    | @step c d _ hd hfree ih =>
      by_cases hdb : d = b
      · exact .inl hdb
      · have hfree' : d ∉ listed ++ [b] := by simp [hfree, hdb]
        rcases ih with rfl | ⟨s, hs, hway⟩
        · exact .inr ⟨d, hd, .start hfree'⟩
        · exact .inr ⟨s, hs, hway.step hd hfree'⟩
  · rintro (rfl | ⟨s, hs, hway⟩)
    · exact .start hb
    · have hfree := hway.mono (List.subset_append_left listed [b])
      exact ((FreeWay.start hb).step hs hfree.start_notMem).trans hfree

/-- A free way ends in the part that is listed next, or meets none of its blocks. -/
theorem mem_or_append {s : Nat} (hpart : g.Part listed s part) (h : g.FreeWay listed b c) :
    c ∈ part ∨ g.FreeWay (listed ++ part) b c := by
  induction h with
  | start h =>
    by_cases hb : b ∈ part
    · exact .inl hb
    · exact .inr (.start (by simp [h, hb]))
  | @step c d _ hd hfree ih =>
    rcases ih with hc | hway
    · -- From inside the part a step leads to a block of the part.
      exact .inl ((hpart.mem_iff d).mpr (((hpart.mem_iff c).mp hc).step hd hfree))
    · by_cases hmem : d ∈ part
      · exact .inl hmem
      · exact .inr (hway.step hd (by simp [hfree, hmem]))

end FreeWay

/-- Nothing is listed for a block a second time. -/
theorem part_of_mem (hb : b ∈ listed) : g.Part listed b [] where
  first := fun hnot => absurd hb hnot
  mem_iff := fun _ => iff_of_false List.not_mem_nil fun hway => hway.start_notMem hb

theorem Part.eq_nil (h : g.Part listed b part) (hb : b ∈ listed) : part = [] := by
  refine List.eq_nil_iff_forall_not_mem.mpr fun c hc => ?_
  exact ((h.mem_iff c).mp hc).start_notMem hb

/-- The parts of several blocks hold whatever can be found from one of them. -/
theorem Parts.mem_iff {blocks : List Nat} (h : g.Parts listed blocks below) :
    c ∈ below ↔ ∃ s ∈ blocks, g.FreeWay listed s c := by
  induction h with
  | nil => simp
  | @cons listed rest part below b hpart hrest ih =>
    rw [List.mem_append, List.exists_mem_cons_iff, ih]
    constructor
    · rintro (hc | ⟨s, hs, hway⟩)
      · exact .inl ((hpart.mem_iff c).mp hc)
      · exact .inr ⟨s, hs, hway.mono (List.subset_append_left listed part)⟩
    · rintro (hway | ⟨s, hs, hway⟩)
      · exact .inl ((hpart.mem_iff c).mpr hway)
      · exact (hway.mem_or_append hpart).imp_right fun hway' => ⟨s, hs, hway'⟩

/-- The part of a block is the block and what is below it. -/
theorem Parts.toPart (h : g.Parts (listed ++ [b]) (g.successors b) below) (hb : b ∉ listed) :
    g.Part listed b (b :: below) where
  first := fun _ => rfl
  mem_iff := fun c => by rw [List.mem_cons, h.mem_iff, FreeWay.iff_successor hb]

/-! ### Stretches of the order -/

/-- What has been listed behind the blocks listed before is in depth-first preorder.  `heads` are
the blocks that the search was started from. -/
def Ordered (g : Graph) (listed heads order : List Nat) : Prop :=
  ∀ before b after, order = before ++ b :: after →
    (b ∈ heads ∨ ∃ a ∈ before, b ∈ g.successors a) ∧
      ∃ below, below <+: after ∧ g.Parts (listed ++ before ++ [b]) (g.successors b) below

theorem ordered_nil (g : Graph) (listed heads : List Nat) : g.Ordered listed heads [] := by
  intro before b after h
  simp at h

theorem Ordered.append {heads heads' order order' : List Nat} (h : g.Ordered listed heads order)
    (h' : g.Ordered (listed ++ order) heads' order') :
    g.Ordered listed (heads ++ heads') (order ++ order') := by
  intro before b after hsplit
  rcases List.append_eq_append_iff.mp hsplit with ⟨more, rfl, horder'⟩ | ⟨more, horder, hmore⟩
  · -- The block stands in the second stretch.
    obtain ⟨hlinked, below, hprefix, hparts⟩ := h' more b after horder'
    rw [List.append_assoc listed] at hparts
    refine ⟨hlinked.imp (List.mem_append_right heads) ?_, below, hprefix, hparts⟩
    rintro ⟨a, ha, hsucc⟩
    exact ⟨a, List.mem_append_right order ha, hsucc⟩
  · rcases List.cons_eq_append_iff.mp hmore with ⟨rfl, horder'⟩ | ⟨rest, rfl, rfl⟩
    · -- It is the first block of the second stretch.
      rw [List.append_nil] at horder
      subst horder
      obtain ⟨hlinked, below, hprefix, hparts⟩ := h' [] b after horder'
      rw [List.append_nil] at hparts
      refine ⟨hlinked.imp (List.mem_append_right heads) ?_, below, hprefix, hparts⟩
      rintro ⟨a, ha, -⟩
      exact absurd ha List.not_mem_nil
    · obtain ⟨hlinked, below, hprefix, hparts⟩ := h before b rest horder
      exact ⟨hlinked.imp_left (List.mem_append_left heads'), below,
        hprefix.trans (List.prefix_append rest order'), hparts⟩

/-- A block goes before what is below it. -/
theorem Ordered.cons (hparts : g.Parts (listed ++ [b]) (g.successors b) below)
    (h : g.Ordered (listed ++ [b]) (g.successors b) below) :
    g.Ordered listed [b] (b :: below) := by
  intro before c after hsplit
  rcases List.cons_eq_append_iff.mp hsplit with ⟨rfl, hcons⟩ | ⟨rest, rfl, hbelow⟩
  · obtain ⟨rfl, rfl⟩ := List.cons.inj hcons
    rw [List.append_nil]
    exact ⟨.inl List.mem_cons_self, after, List.prefix_rfl, hparts⟩
  · obtain ⟨hlinked, below', hprefix, hparts'⟩ := h rest c after hbelow
    rw [List.append_assoc listed] at hparts'
    refine ⟨.inr ?_, below', hprefix, hparts'⟩
    rcases hlinked with hc | ⟨a, ha, hsucc⟩
    · exact ⟨b, List.mem_cons_self, hc⟩
    · exact ⟨a, List.mem_cons_of_mem b ha, hsucc⟩

/-! ### The search -/

/-- The search can go on from the blocks listed: none is listed twice or does not exist, and the
depth suffices for the others. -/
structure Sufficient (g : Graph) (depth : Nat) (listed : List Nat) : Prop where
  nodup : listed.Nodup
  inRange : ∀ b ∈ listed, b < g.blocks.size
  size_le : g.blocks.size ≤ depth + listed.length

namespace Sufficient

variable {depth : Nat}

theorem visit (hg : g.TargetsInRange) (h : g.Sufficient depth listed) (hb : b < g.blocks.size) :
    g.Sufficient depth (g.visit depth listed b) := by
  obtain ⟨hexplored, -⟩ := explored_visit hg depth listed b hb h.nodup h.inRange h.size_le
  have hlength := hexplored.length_le
  have hsize := h.size_le
  exact ⟨hexplored.nodup, hexplored.inRange, by omega⟩

theorem concat (h : g.Sufficient (depth + 1) listed) (hb : b < g.blocks.size) (hnew : b ∉ listed) :
    g.Sufficient depth (listed ++ [b]) where
  nodup := by
    rw [← List.concat_eq_append]
    exact h.nodup.concat hnew
  inRange := List.forall_mem_append.mpr ⟨h.inRange, List.forall_mem_singleton.mpr hb⟩
  size_le := by
    have hsize := h.size_le
    rw [List.length_append, List.length_singleton]
    omega

/-- When the depth is used up all blocks are listed. -/
theorem mem_of_zero (h : g.Sufficient 0 listed) (hb : b < g.blocks.size) : b ∈ listed :=
  mem_of_size_le_length h.nodup h.inRange (by have := h.size_le; omega) hb

end Sufficient

variable {depth : Nat}

theorem foldl_visit_parts (hg : g.TargetsInRange) (blocks : List Nat)
    (hblocks : ∀ b ∈ blocks, b < g.blocks.size) (hdepth : g.Sufficient depth listed)
    (hstep : ∀ listed b, g.Sufficient depth listed → b < g.blocks.size →
      ∃ part, g.visit depth listed b = listed ++ part ∧ g.Part listed b part ∧
        g.Ordered listed [b] part) :
    ∃ below, blocks.foldl (g.visit depth) listed = listed ++ below ∧
      g.Parts listed blocks below ∧ g.Ordered listed blocks below := by
  induction blocks generalizing listed with
  | nil => exact ⟨[], (List.append_nil listed).symm, .nil, ordered_nil g listed []⟩
  | cons b rest ih =>
    obtain ⟨hb, hrest⟩ := List.forall_mem_cons.mp hblocks
    obtain ⟨part, hvisit, hpart, hordered⟩ := hstep listed b hdepth hb
    obtain ⟨below, hfold, hparts, hordered'⟩ := ih hrest (hvisit ▸ hdepth.visit hg hb)
    refine ⟨part ++ below, ?_, .cons hpart hparts, hordered.append hordered'⟩
    rw [List.foldl_cons, hvisit, hfold, List.append_assoc]

/-- **The search lists the part of the block that it starts from,** in depth-first preorder. -/
theorem visit_part (hg : g.TargetsInRange) (hdepth : g.Sufficient depth listed)
    (hb : b < g.blocks.size) :
    ∃ part, g.visit depth listed b = listed ++ part ∧ g.Part listed b part ∧
      g.Ordered listed [b] part := by
  induction depth generalizing listed b with
  | zero =>
    exact ⟨[], (List.append_nil listed).symm, part_of_mem (hdepth.mem_of_zero hb),
      ordered_nil g listed [b]⟩
  | succ depth ih =>
    rw [visit]
    by_cases hlisted : b ∈ listed
    · rw [if_pos hlisted]
      exact ⟨[], (List.append_nil listed).symm, part_of_mem hlisted, ordered_nil g listed [b]⟩
    · rw [if_neg hlisted]
      obtain ⟨below, hfold, hparts, hordered⟩ := foldl_visit_parts hg (g.successors b) (hg b)
        (hdepth.concat hb hlisted) fun _ _ => ih
      exact ⟨b :: below, by rw [hfold, List.append_assoc]; rfl, hparts.toPart hlisted,
        hordered.cons hparts⟩

/-! ### No other order -/

section Unique

variable {order : List Nat}

theorem Parts.foldl_visit_eq (hg : g.TargetsInRange) {blocks rest : List Nat}
    (hparts : g.Parts listed blocks below) (hblocks : ∀ b ∈ blocks, b < g.blocks.size)
    (hdepth : g.Sufficient depth listed) (horder : order = listed ++ (below ++ rest))
    (hstep : ∀ listed part rest b, g.Sufficient depth listed → b < g.blocks.size →
      order = listed ++ (part ++ rest) → g.Part listed b part →
        g.visit depth listed b = listed ++ part) :
    blocks.foldl (g.visit depth) listed = listed ++ below := by
  induction hparts with
  | nil => exact (List.append_nil _).symm
  | @cons listed blocks part below b hpart _ ih =>
    obtain ⟨hb, hblocks⟩ := List.forall_mem_cons.mp hblocks
    rw [List.append_assoc] at horder
    have hvisit := hstep listed part (below ++ rest) b hdepth hb horder hpart
    rw [List.foldl_cons, hvisit, ih hblocks (hvisit ▸ hdepth.visit hg hb)
      (by rw [horder, List.append_assoc]), List.append_assoc]

/-- What an order lists for a block is what the search lists for it. -/
theorem DepthFirst.visit_eq (hg : g.TargetsInRange) (h : g.DepthFirst order) {rest : List Nat}
    (hdepth : g.Sufficient depth listed) (hb : b < g.blocks.size)
    (horder : order = listed ++ (part ++ rest)) (hpart : g.Part listed b part) :
    g.visit depth listed b = listed ++ part := by
  induction depth generalizing listed part rest b with
  | zero =>
    rw [hpart.eq_nil (hdepth.mem_of_zero hb), List.append_nil]
    rfl
  | succ depth ih =>
    rw [visit]
    by_cases hlisted : b ∈ listed
    · rw [if_pos hlisted, hpart.eq_nil hlisted, List.append_nil]
    · obtain ⟨tail, rfl⟩ := List.head?_eq_some_iff.mp (hpart.first hlisted)
      obtain ⟨below, hprefix, hparts⟩ := h.below listed b (tail ++ rest) horder
      -- Both are what can be found from the block, from the same place of the order on.
      have hbelow : b :: below = b :: tail := by
        have hnodup : (b :: (tail ++ rest)).Nodup := by
          have hwhole := h.nodup
          rw [horder] at hwhole
          exact hwhole.of_append_right
        refine eq_of_isPrefix_of_mem_iff hnodup (List.cons_prefix_cons.mpr ⟨rfl, hprefix⟩)
          (List.cons_prefix_cons.mpr ⟨rfl, List.prefix_append tail rest⟩) fun c => ?_
        rw [(hparts.toPart hlisted).mem_iff, hpart.mem_iff]
      obtain rfl := (List.cons.inj hbelow).2
      have horder' : order = (listed ++ [b]) ++ (below ++ rest) := by
        rw [horder, List.append_assoc]
        rfl
      have hfold := hparts.foldl_visit_eq hg (hg b) (hdepth.concat hb hlisted) horder'
        fun _ _ _ _ => ih
      rw [if_neg hlisted, hfold, List.append_assoc]
      rfl

end Unique

/-! ### From the entry -/

theorem exists_route_iff : (∃ passed, g.Route passed b) ↔ g.FreeWay [] 0 b := by
  constructor
  · rintro ⟨passed, hroute⟩
    induction hroute with
    | entry => exact .start List.not_mem_nil
    | step _ hc ih => exact ih.step hc List.not_mem_nil
  · intro hway
    induction hway with
    | start => exact ⟨[], .entry⟩
    | step _ hd _ ih =>
      obtain ⟨passed, hroute⟩ := ih
      exact ⟨_, hroute.step hd⟩

/-- The search begins with all blocks to find. -/
theorem sufficient_nil (g : Graph) : g.Sufficient g.blocks.size [] where
  nodup := List.nodup_nil
  inRange := fun _ hb => absurd hb List.not_mem_nil
  size_le := Nat.le_refl _

theorem depthFirst_reachable (hg : g.TargetsInRange) (hsize : 0 < g.blocks.size) :
    g.DepthFirst g.reachable := by
  obtain ⟨part, hvisit, hpart, hordered⟩ := visit_part hg (sufficient_nil g) hsize
  obtain rfl : g.reachable = part := hvisit
  have hnodup := (explored_reachable hg hsize).1.nodup
  have hfirst := hpart.first List.not_mem_nil
  refine ⟨hnodup, hfirst, fun b => ?_, fun before b after horder hne => ?_,
    fun before b after horder => (hordered before b after horder).2⟩
  · rw [hpart.mem_iff, exists_route_iff]
  · refine (hordered before b after horder).1.resolve_left fun hb => ?_
    -- The entry stands at the front, and only there.
    obtain ⟨a, rest, rfl⟩ := List.exists_cons_of_ne_nil hne
    rw [horder] at hnodup hfirst
    obtain rfl : a = 0 := Option.some.inj hfirst
    rw [List.mem_singleton.mp hb] at hnodup
    exact (List.nodup_cons.mp hnodup).1 (by simp)

theorem DepthFirst.eq_reachable (hg : g.TargetsInRange) (hsize : 0 < g.blocks.size)
    {order : List Nat} (h : g.DepthFirst order) : order = g.reachable := by
  have hpart : g.Part [] 0 order :=
    ⟨fun _ => h.first, fun c => (h.mem_iff c).trans exists_route_iff⟩
  exact (h.visit_eq hg (sufficient_nil g) hsize (List.append_nil order).symm hpart).symm

/-- **The search gives the blocks that can be reached, in depth-first preorder,** and that is only
one list: each of the blocks once, the entry first, every other one a successor of an earlier one,
and all that is first found below a successor before the next successor of the same block. -/
theorem depthFirst_iff (hg : g.TargetsInRange) (hsize : 0 < g.blocks.size) (order : List Nat) :
    g.DepthFirst order ↔ order = g.reachable := by
  constructor
  · exact DepthFirst.eq_reachable hg hsize
  · rintro rfl
    exact depthFirst_reachable hg hsize

/-- Block 3 can be reached in two ways and block 4 not at all, and the first successor of the entry
is not the block that comes next in the graph. -/
def crossing : Graph where
  vars := ["n"]
  blocks := #[
    ⟨0, "entry", [], some (.branch (.load "n") 2 1), [2]⟩,
    ⟨1, "right", [], some (.jump 3), [0, 3, 4]⟩,
    ⟨2, "left", [], some (.branch (.load "n") 3 0), [0]⟩,
    ⟨3, "meet", [], some (.branch (.load "n") 3 1), [1, 2, 3]⟩,
    ⟨4, "lost", [], some (.jump 1), []⟩]

theorem depthFirst_crossing : crossing.TargetsInRange ∧ 0 < crossing.blocks.size ∧
    crossing.reachable = [0, 2, 3, 1] ∧ crossing.DepthFirst [0, 2, 3, 1] ∧
    ¬ crossing.DepthFirst [0, 2, 1, 3] := by
  have htargets : crossing.TargetsInRange := by
    intro b c hc
    by_cases hb : b < 5
    · have hall : ∀ b < 5, ∀ c ∈ crossing.successors b, c < 5 := by decide
      exact hall b hb c hc
    · have hnone : crossing.blocks[b]? = none :=
        Array.getElem?_eq_none (Nat.le_of_not_lt hb)
      rw [successors, hnone] at hc
      cases hc
  have hreachable : crossing.reachable = [0, 2, 3, 1] := by decide
  have hsize : 0 < crossing.blocks.size := by decide
  refine ⟨htargets, hsize, hreachable, (depthFirst_iff htargets hsize _).mpr hreachable.symm,
    fun h => ?_⟩
  have heq := (depthFirst_iff htargets hsize _).mp h
  rw [hreachable] at heq
  exact absurd heq (by decide)

end Graph

end BlockFlow
