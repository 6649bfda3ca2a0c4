import BlockFlow.Graph.Basic
import Mathlib.Data.List.Nodup
import Mathlib.Data.List.Perm.Subperm
import Mathlib.Tactic.ByContra

/-!
# Reachable blocks

A route is a way that control can take through a graph: the blocks it passed, in turn, and the block
where it stands.  The search of `Graph.reachable` finds exactly the blocks that routes lead to
(`Graph.mem_reachable_iff`), although it follows no path that is longer than the graph.

The invariant of the search (`Graph.Explored`) is that every block it has added has all its
successors in the result.  A block on the way to which the search still is does not have them yet,
so the invariant speaks of one call as a whole.  The depth suffices because each level of the search
adds a block: depth and blocks seen together never fall below the size of the graph, and when the
depth is used up every block has been seen.
-/

namespace BlockFlow

/-- Blocks below a size that repeat none and are as many as the size are all blocks. -/
theorem mem_of_size_le_length {blocks : List Nat} {size b : Nat} (hnodup : blocks.Nodup)
    (hrange : ∀ c ∈ blocks, c < size) (hlength : size ≤ blocks.length) (hb : b < size) :
    b ∈ blocks := by
  by_contra hnot
  have hcons : (b :: blocks).Nodup := List.nodup_cons.mpr ⟨hnot, hnodup⟩
  have hsub : b :: blocks ⊆ List.range size := by
    intro c hc
    rcases List.mem_cons.mp hc with rfl | hc
    · exact List.mem_range.mpr hb
    · exact List.mem_range.mpr (hrange c hc)
  have hle := (hcons.subperm hsub).length_le
  rw [List.length_cons, List.length_range] at hle
  omega

namespace Graph

/-- Control can pass the given blocks, in turn and beginning with the entry, and come to a block. -/
inductive Route (g : Graph) : (passed : List Nat) → (block : Nat) → Prop where
  | entry : Route g [] 0
  | step {passed : List Nat} {b c : Nat} (h : Route g passed b) (hc : c ∈ g.successors b) :
      Route g (passed ++ [b]) c

/-- All branches lead to blocks of the graph. -/
def TargetsInRange (g : Graph) : Prop :=
  ∀ b, ∀ c ∈ g.successors b, c < g.blocks.size

/-- What a search makes of the blocks seen already: it adds blocks that exist, each of them once,
and together with a block all its successors. -/
structure Explored (g : Graph) (seen result : List Nat) : Prop where
  keeps : seen <+: result
  nodup : result.Nodup
  inRange : ∀ b ∈ result, b < g.blocks.size
  closed : ∀ b ∈ result, b ∉ seen → ∀ c ∈ g.successors b, c ∈ result

variable {g : Graph} {seen result : List Nat}

theorem Explored.refl (hnodup : seen.Nodup) (hrange : ∀ b ∈ seen, b < g.blocks.size) :
    g.Explored seen seen where
  keeps := List.prefix_rfl
  nodup := hnodup
  inRange := hrange
  closed := fun _ hb hnot => absurd hb hnot

theorem Explored.trans {middle : List Nat} (h : g.Explored seen middle)
    (h' : g.Explored middle result) : g.Explored seen result where
  keeps := h.keeps.trans h'.keeps
  nodup := h'.nodup
  inRange := h'.inRange
  closed := by
    intro b hb hseen c hc
    by_cases hmiddle : b ∈ middle
    · exact h'.keeps.subset (h.closed b hmiddle hseen c hc)
    · exact h'.closed b hb hmiddle c hc

theorem Explored.length_le (h : g.Explored seen result) : seen.length ≤ result.length :=
  h.keeps.length_le

/-- A search from several blocks, one after the other, explores if each single one does. -/
theorem explored_foldl {search : List Nat → Nat → List Nat} {depth : Nat} (blocks : List Nat)
    (hstep : ∀ seen b, b < g.blocks.size → seen.Nodup → (∀ b ∈ seen, b < g.blocks.size) →
      g.blocks.size ≤ depth + seen.length →
        g.Explored seen (search seen b) ∧ b ∈ search seen b)
    (hblocks : ∀ b ∈ blocks, b < g.blocks.size) (hnodup : seen.Nodup)
    (hrange : ∀ b ∈ seen, b < g.blocks.size) (hdepth : g.blocks.size ≤ depth + seen.length) :
    g.Explored seen (blocks.foldl search seen) ∧ ∀ b ∈ blocks, b ∈ blocks.foldl search seen := by
  induction blocks generalizing seen with
  | nil => exact ⟨.refl hnodup hrange, fun b hb => by cases hb⟩
  | cons b rest ih =>
    obtain ⟨hfirst, hmem⟩ := hstep seen b (hblocks b List.mem_cons_self) hnodup hrange hdepth
    have hlength := hfirst.length_le
    obtain ⟨hrest, hmems⟩ := ih (fun c hc => hblocks c (List.mem_cons_of_mem b hc)) hfirst.nodup
      hfirst.inRange (by omega)
    refine ⟨hfirst.trans hrest, fun c hc => ?_⟩
    rcases List.mem_cons.mp hc with rfl | hc
    · exact hrest.keeps.subset hmem
    · exact hmems c hc

/-- The search explores, and finds the block that it starts from. -/
theorem explored_visit (hg : g.TargetsInRange) (depth : Nat) (seen : List Nat) (b : Nat)
    (hb : b < g.blocks.size) (hnodup : seen.Nodup) (hrange : ∀ b ∈ seen, b < g.blocks.size)
    (hdepth : g.blocks.size ≤ depth + seen.length) :
    g.Explored seen (g.visit depth seen b) ∧ b ∈ g.visit depth seen b := by
  induction depth generalizing seen b with
  | zero =>
    -- The depth is used up only when every block has been seen.
    have hseen : b ∈ seen := mem_of_size_le_length hnodup hrange (by omega) hb
    exact ⟨.refl hnodup hrange, hseen⟩
  | succ depth ih =>
    unfold visit
    by_cases hseen : b ∈ seen
    · rw [if_pos hseen]
      exact ⟨.refl hnodup hrange, hseen⟩
    · rw [if_neg hseen]
      have hnodup' : (seen ++ [b]).Nodup := by
        rw [← List.concat_eq_append]
        exact hnodup.concat hseen
      have hrange' : ∀ c ∈ seen ++ [b], c < g.blocks.size := by
        intro c hc
        rcases List.mem_append.mp hc with hc | hc
        · exact hrange c hc
        · rw [List.mem_singleton.mp hc]
          exact hb
      obtain ⟨hexplored, hsuccs⟩ := explored_foldl (g.successors b) ih (hg b) hnodup' hrange'
        (by rw [List.length_append, List.length_singleton]; omega)
      have hmem := hexplored.keeps.subset (List.mem_append_right seen (List.mem_singleton.mpr rfl))
      refine ⟨⟨(List.prefix_append seen [b]).trans hexplored.keeps, hexplored.nodup,
        hexplored.inRange, fun c hc hnot => ?_⟩, hmem⟩
      -- The block itself has been seen by its successors, so the invariant leaves it to us.
      by_cases hcb : c = b
      · rw [hcb]
        exact hsuccs
      · exact hexplored.closed c hc (by simp [hnot, hcb])

/-- Two searches that agree on every single block agree on several, one after the other. -/
theorem foldl_visit_congr (hg : g.TargetsInRange) {depth depth' : Nat} (blocks : List Nat)
    (hstep : ∀ seen b, b < g.blocks.size → seen.Nodup → (∀ b ∈ seen, b < g.blocks.size) →
      g.blocks.size ≤ depth + seen.length → g.visit depth' seen b = g.visit depth seen b)
    (hblocks : ∀ b ∈ blocks, b < g.blocks.size) (hnodup : seen.Nodup)
    (hrange : ∀ b ∈ seen, b < g.blocks.size) (hdepth : g.blocks.size ≤ depth + seen.length) :
    blocks.foldl (g.visit depth') seen = blocks.foldl (g.visit depth) seen := by
  induction blocks generalizing seen with
  | nil => rfl
  | cons b rest ih =>
    have hb := hblocks b List.mem_cons_self
    obtain ⟨hexplored, -⟩ := explored_visit hg depth seen b hb hnodup hrange hdepth
    have hlength := hexplored.length_le
    rw [List.foldl_cons, List.foldl_cons, hstep seen b hb hnodup hrange hdepth]
    exact ih (fun c hc => hblocks c (List.mem_cons_of_mem b hc)) hexplored.nodup
      hexplored.inRange (by omega)

/-- A search that may go deeper than the bound finds nothing more. -/
theorem visit_add (hg : g.TargetsInRange) (depth more : Nat) (seen : List Nat) (b : Nat)
    (hb : b < g.blocks.size) (hnodup : seen.Nodup) (hrange : ∀ b ∈ seen, b < g.blocks.size)
    (hdepth : g.blocks.size ≤ depth + seen.length) :
    g.visit (depth + more) seen b = g.visit depth seen b := by
  induction depth generalizing seen b with
  | zero =>
    have hseen : b ∈ seen := mem_of_size_le_length hnodup hrange (by omega) hb
    cases more with
    | zero => rfl
    | succ more =>
      rw [Nat.zero_add, visit, visit, if_pos hseen]
  | succ depth ih =>
    rw [Nat.succ_add, visit, visit]
    by_cases hseen : b ∈ seen
    · rw [if_pos hseen, if_pos hseen]
    · rw [if_neg hseen, if_neg hseen]
      have hnodup' : (seen ++ [b]).Nodup := by
        rw [← List.concat_eq_append]
        exact hnodup.concat hseen
      have hrange' : ∀ c ∈ seen ++ [b], c < g.blocks.size :=
        List.forall_mem_append.mpr ⟨hrange, List.forall_mem_singleton.mpr hb⟩
      exact foldl_visit_congr hg _ ih (hg b) hnodup' hrange' (by
        rw [List.length_append, List.length_singleton]
        omega)

/-- A property of the block that a search starts from, and kept along branches, holds of all that
the search adds. -/
theorem visit_induction {P : Nat → Prop} (hstep : ∀ b, P b → ∀ c ∈ g.successors b, P c)
    (depth : Nat) (seen : List Nat) (b : Nat) (hb : P b) (hseen : ∀ c ∈ seen, P c) :
    ∀ c ∈ g.visit depth seen b, P c := by
  induction depth generalizing seen b with
  | zero => exact hseen
  | succ depth ih =>
    unfold visit
    split
    · exact hseen
    · have hfold : ∀ (blocks seen : List Nat), (∀ c ∈ blocks, P c) → (∀ c ∈ seen, P c) →
          ∀ c ∈ blocks.foldl (g.visit depth) seen, P c := by
        intro blocks
        induction blocks with
        | nil => exact fun _ _ hseen => hseen
        | cons c rest ih' =>
          intro seen hblocks hseen
          exact ih' _ (fun d hd => hblocks d (List.mem_cons_of_mem c hd))
            (ih seen c (hblocks c List.mem_cons_self) hseen)
      refine hfold _ _ (hstep b hb) fun c hc => ?_
      rcases List.mem_append.mp hc with hc | hc
      · exact hseen c hc
      · rw [List.mem_singleton.mp hc]
        exact hb

/-- What is found from the entry: all successors of a block found are found too. -/
theorem explored_reachable (hg : g.TargetsInRange) (hsize : 0 < g.blocks.size) :
    g.Explored [] g.reachable ∧ 0 ∈ g.reachable :=
  explored_visit hg _ [] 0 hsize List.nodup_nil (fun _ hb => by cases hb) (by simp)

/-- **The search finds exactly the blocks that can be reached.** -/
theorem mem_reachable_iff (hg : g.TargetsInRange) (hsize : 0 < g.blocks.size) {b : Nat} :
    b ∈ g.reachable ↔ ∃ passed, g.Route passed b := by
  constructor
  · refine visit_induction (P := fun b => ∃ passed, g.Route passed b) ?_ _ [] 0 ⟨[], .entry⟩
      (fun _ hb => by cases hb) b
    rintro b ⟨passed, hroute⟩ c hc
    exact ⟨passed ++ [b], hroute.step hc⟩
  · rintro ⟨passed, hroute⟩
    obtain ⟨hexplored, hentry⟩ := explored_reachable hg hsize
    induction hroute with
    | entry => exact hentry
    | step _ hc ih => exact hexplored.closed _ ih (by simp) _ hc

end Graph

end BlockFlow
