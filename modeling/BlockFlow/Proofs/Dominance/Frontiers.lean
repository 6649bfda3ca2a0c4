import BlockFlow.Proofs.Dominance.Tree
import BlockFlow.Proofs.Reachability

/-!
# Frontiers

Between a predecessor of a block and the immediate dominator of the block, the tree leads only
through blocks that have the block in their frontier (`frontier_induction`).  That is plain for a
join, where the frontier is found by this very climb; at a block with one predecessor there is
nothing between, since the predecessor is its immediate dominator.  These blocks are the ones that
dominate the predecessor but do not strictly dominate the block (`mem_frontiers_iff`).

The iterated frontier of some blocks holds the frontier of each of them and of each block it holds
itself (`iteratedFrontier_closed`).  The search for it keeps what it has looked at and what it has
yet to look at apart: together they are the blocks that were ever queued, in order and without
repetition, so that the work list is empty before the bound is used up.  It is the least such set
(`mem_iteratedFrontier_iff`), because every block that the search notes is one that any such set
holds.
-/

namespace BlockFlow.Dominance

variable {preds : Table} {b p y : Nat}

theorem Table.lt_size_of_mem (h : p ∈ preds.of b) : b < preds.size := by
  by_contra hnot
  rw [Table.of, Array.getElem?_eq_none (Nat.le_of_not_lt hnot)] at h
  cases h

/-! ### Frontiers -/

theorem size_frontiers (preds : Table) (links : Links) :
    (frontiers preds links).size = preds.size :=
  Array.size_ofFn

theorem mem_frontiers {links : Links} :
    y ∈ (frontiers preds links).of b ↔
      b < preds.size ∧ y < preds.size ∧ b ∈ frontierHolders preds links y := by
  by_cases hb : b < preds.size
  · by_cases hy : y < preds.size
    · simp [frontiers, Table.of, hb, hy]
    · simp [frontiers, Table.of, hb, hy]
  · simp [frontiers, Table.of, hb]

/-- A block other than the entry has a predecessor that is not the block itself. -/
theorem Connected.exists_pred_ne (h : Connected preds) (hb : b < preds.size) (h0 : b ≠ 0) :
    ∃ p ∈ preds.of b, p ≠ b := by
  by_contra hall
  have hnever : ∀ c, Way preds (fun _ => True) c → c ≠ b := by
    intro c hway
    induction hway with
    | entry => exact Ne.symm h0
    | @step q c _ hq _ ih =>
      rintro rfl
      exact hall ⟨q, hq, ih⟩
  exact hnever b (h.reached b hb) rfl

/-- The only predecessor of a block is its immediate dominator. -/
theorem IsIdom.eq_of_preds_eq (hpreds : Connected preds) (hb : b < preds.size) (h0 : b ≠ 0)
    {d : Nat} (h : IsIdom preds d b) (hp : preds.of b = [p]) : d = p := by
  have hself : p ≠ b := by
    obtain ⟨q, hq, hne⟩ := hpreds.exists_pred_ne hb h0
    rw [hp, List.mem_singleton] at hq
    exact hq ▸ hne
  have hdom : Dominates preds p b := by
    refine .of_forall_pred h0 fun q hq => ?_
    rw [hp, List.mem_singleton] at hq
    exact hq ▸ .refl preds p
  have hmem : p ∈ preds.of b := by rw [hp]; exact List.mem_singleton.mpr rfl
  exact (h.dominates.of_pred (Ne.symm h.ne) hmem).antisymm (h.closest p hdom hself)
    (hpreds.reached d (hpreds.lt_of_dominates hb h.dominates))

/-- What is met on a climb to the immediate dominator of a block has the block in its frontier. -/
theorem mem_frontiers_of_mem_climb (hpreds : Connected preds) {d c : Nat}
    (hidom : (tree preds).of y = some d) (hp : p ∈ preds.of y) (hc : c < preds.size)
    (hmem : c ∈ climb (tree preds) (some d) (tree preds).size p) :
    y ∈ (frontiers preds (tree preds)).of c := by
  have hy := lt_of_of_tree hidom
  rw [mem_frontiers]
  refine ⟨hc, hy, ?_⟩
  unfold frontierHolders
  split
  · -- With a single predecessor the climb would start where it ends.
    next hlt =>
    obtain ⟨h0, hisIdom⟩ := isIdom_of_of_tree hpreds hidom
    have hsingle : preds.of y = [p] := by
      have hlength : (preds.of y).length = 1 := by
        have hpos := List.length_pos_of_mem hp
        omega
      obtain ⟨q, hq⟩ := List.length_eq_one_iff.mp hlength
      rw [hq, List.mem_singleton] at hp
      rw [hq, hp]
    rw [hisIdom.eq_of_preds_eq hpreds hy h0 hsingle] at hmem
    cases hsize : (tree preds).size with
    | zero =>
      rw [hsize] at hmem
      cases hmem
    | succ n =>
      rw [hsize, climb, if_pos rfl] at hmem
      cases hmem
  · rw [hidom]
    exact List.mem_flatMap.mpr ⟨p, hp, hmem⟩

/-- **From a predecessor up to the immediate dominator.**  What holds of the immediate dominator of
a block, and of every block that has this block in its frontier if it holds of the one above, holds
of all predecessors of the block. -/
theorem frontier_induction (hpreds : Connected preds) {P : Nat → Prop} {d : Nat} (hd : P d)
    (hidom : (tree preds).of y = some d)
    (hstep : ∀ c up, y ∈ (frontiers preds (tree preds)).of c → (tree preds).of c = some up →
      P up → P c) (hp : p ∈ preds.of y) : P p := by
  have hisIdom := (isIdom_of_of_tree hpreds hidom).2
  have hplt := hpreds.lt_size hp
  have hfuel : depth preds p ≤ (tree preds).size := by
    rw [size_tree]
    exact depth_le_size hpreds hplt
  refine climb_induction hpreds hd hplt (hisIdom.dominates.of_pred (Ne.symm hisIdom.ne) hp) hfuel
    fun c up hc hup hP => ?_
  exact hstep c up (mem_frontiers_of_mem_climb hpreds hidom hp (lt_of_of_tree hup) hc) hup hP

/-- **Frontiers are exact.**  Unless the entry has predecessors, a block has another one in its
frontier exactly if it dominates a predecessor of it but does not strictly dominate it. -/
theorem mem_frontiers_iff (hpreds : Connected preds) (hentry : preds.of 0 = []) {x : Nat} :
    y ∈ (frontiers preds (tree preds)).of x ↔
      (∃ p ∈ preds.of y, Dominates preds x p) ∧ ¬ (Dominates preds x y ∧ x ≠ y) := by
  -- Both sides are about the climbs from the predecessors up to the immediate dominator.
  have hclimb : ∀ {p}, p ∈ preds.of y → ∃ d, (tree preds).of y = some d ∧ IsIdom preds d y ∧
      (x ∈ climb (tree preds) (some d) (tree preds).size p ↔
        Dominates preds x p ∧ ¬ Dominates preds x d) := by
    intro p hp
    have hy : y < preds.size := Table.lt_size_of_mem hp
    have h0 : y ≠ 0 := by
      rintro rfl
      rw [hentry] at hp
      cases hp
    obtain ⟨d, hd, hidom⟩ := exists_idomOf hpreds hy h0
    rw [← of_tree hy] at hd
    have hplt := hpreds.lt_size hp
    refine ⟨d, hd, hidom, ?_⟩
    apply mem_climb_iff hpreds hplt (hidom.dominates.of_pred (Ne.symm hidom.ne) hp)
    rw [size_tree]
    exact depth_le_size hpreds hplt
  constructor
  · intro hmem
    obtain ⟨_, _, hholder⟩ := mem_frontiers.mp hmem
    unfold frontierHolders at hholder
    split at hholder
    · cases hholder
    · obtain ⟨p, hp, hmet⟩ := List.mem_flatMap.mp hholder
      obtain ⟨d, hd, hidom, hiff⟩ := hclimb hp
      rw [hd] at hmet
      obtain ⟨hdom, hnot⟩ := hiff.mp hmet
      exact ⟨⟨p, hp, hdom⟩, fun hstrict => hnot (hidom.closest x hstrict.1 hstrict.2)⟩
  · rintro ⟨⟨p, hp, hdom⟩, hnot⟩
    obtain ⟨d, hd, hidom, hiff⟩ := hclimb hp
    have hx : x < preds.size := hpreds.lt_of_dominates (hpreds.lt_size hp) hdom
    refine mem_frontiers_of_mem_climb hpreds hd hp hx (hiff.mpr ⟨hdom, fun hxd => hnot ?_⟩)
    -- What dominates the immediate dominator strictly dominates the block.
    refine ⟨hxd.trans hidom.dominates, ?_⟩
    rintro rfl
    exact hidom.ne (hxd.antisymm hidom.dominates (hpreds.reached x hx)).symm

/-- Frontiers are listed in order, without repetition. -/
theorem pairwise_frontiers (preds : Table) (links : Links) (b : Nat) :
    ((frontiers preds links).of b).Pairwise (· < ·) := by
  by_cases hb : b < preds.size
  · simp only [frontiers, Table.of, Array.getElem?_ofFn, hb, dite_true, Option.getD_some]
    exact List.Pairwise.filter _ List.pairwise_lt_range
  · simp [frontiers, Table.of, hb]

/-! ### Iterated frontiers -/

/-- A search in progress that has looked at the blocks `done`. -/
structure Spreading (size : Nat) (done : List Nat) (s : Spread) : Prop where
  queued_eq : s.queued = done ++ s.work
  nodup : s.queued.Nodup
  inRange : ∀ b ∈ s.queued, b < size
  found_queued : ∀ b ∈ s.found, b ∈ s.queued

/-- What a search holds and another one holds too. -/
structure Within (s s' : Spread) : Prop where
  queued : ∀ b ∈ s.queued, b ∈ s'.queued
  found : ∀ b ∈ s.found, b ∈ s'.found

variable {size : Nat} {done : List Nat} {s : Spread}

theorem Spreading.note (h : Spreading size done s) (hy : y < size) :
    Spreading size done (s.note y) ∧ Within s (s.note y) ∧ y ∈ (s.note y).found := by
  unfold Spread.note
  by_cases hfound : y ∈ s.found
  · rw [if_pos hfound]
    exact ⟨h, ⟨fun _ hb => hb, fun _ hb => hb⟩, hfound⟩
  · rw [if_neg hfound]
    by_cases hqueued : y ∈ s.queued
    · rw [if_pos hqueued]
      refine ⟨⟨h.queued_eq, h.nodup, h.inRange, fun b hb => ?_⟩,
        ⟨fun _ hb => hb, fun _ hb => List.mem_append_left [y] hb⟩, by simp⟩
      rcases List.mem_append.mp hb with hb | hb
      · exact h.found_queued b hb
      · exact List.mem_singleton.mp hb ▸ hqueued
    · -- A block met for the first time goes to the end of both lists.
      rw [if_neg hqueued]
      refine ⟨⟨?_, ?_, fun b hb => ?_, fun b hb => ?_⟩,
        ⟨fun _ hb => List.mem_append_left [y] hb, fun _ hb => List.mem_append_left [y] hb⟩, by simp⟩
      · rw [h.queued_eq, List.append_assoc]
      · show (s.queued ++ [y]).Nodup
        rw [← List.concat_eq_append]
        exact List.Nodup.concat hqueued h.nodup
      · rcases List.mem_append.mp hb with hb | hb
        · exact h.inRange b hb
        · exact List.mem_singleton.mp hb ▸ hy
      · rcases List.mem_append.mp hb with hb | hb
        · exact List.mem_append_left [y] (h.found_queued b hb)
        · exact List.mem_append_right s.queued hb

theorem Spreading.foldl_note (ys : List Nat) (h : Spreading size done s)
    (hys : ∀ y ∈ ys, y < size) :
    Spreading size done (ys.foldl Spread.note s) ∧ Within s (ys.foldl Spread.note s) ∧
      ∀ y ∈ ys, y ∈ (ys.foldl Spread.note s).found := by
  induction ys generalizing s with
  | nil => exact ⟨h, ⟨fun _ hb => hb, fun _ hb => hb⟩, fun _ hy => by cases hy⟩
  | cons y rest ih =>
    obtain ⟨hnote, hwithin, hfound⟩ := h.note (hys y List.mem_cons_self)
    obtain ⟨hrest, hwithin', hfound'⟩ := ih hnote fun z hz => hys z (List.mem_cons_of_mem y hz)
    refine ⟨hrest, ⟨fun b hb => hwithin'.queued b (hwithin.queued b hb),
      fun b hb => hwithin'.found b (hwithin.found b hb)⟩, fun z hz => ?_⟩
    rcases List.mem_cons.mp hz with rfl | hz
    · exact hwithin'.found _ hfound
    · exact hfound' z hz

/-- The search finds the frontiers of all blocks that were queued and of all that it finds. -/
theorem Spreading.run_closed {fronts : Table} (hfronts : ∀ b, ∀ y ∈ fronts.of b, y < size)
    (fuel : Nat) (h : Spreading size done s) (hfuel : size ≤ fuel + done.length)
    (hdone : ∀ b ∈ done, ∀ y ∈ fronts.of b, y ∈ s.found) (b : Nat)
    (hb : b ∈ s.queued ∨ b ∈ s.run fronts fuel) (y : Nat) (hy : y ∈ fronts.of b) :
    y ∈ s.run fronts fuel := by
  induction fuel generalizing s done with
  | zero =>
    -- As many blocks as there are have been looked at, so none is left to be.
    have hqueued : b ∈ s.queued := hb.elim id (h.found_queued b)
    refine hdone b ?_ y hy
    refine mem_of_size_le_length ?_ ?_ (by omega) (h.inRange b hqueued)
    · have hnodup := h.nodup
      rw [h.queued_eq] at hnodup
      exact hnodup.of_append_left
    · intro c hc
      exact h.inRange c (by rw [h.queued_eq]; exact List.mem_append_left _ hc)
  | succ fuel ih =>
    unfold Spread.run at hb ⊢
    cases hwork : s.work with
    | nil =>
      simp only [hwork] at hb ⊢
      have hqueued : b ∈ s.queued := hb.elim id (h.found_queued b)
      rw [h.queued_eq, hwork, List.append_nil] at hqueued
      exact hdone b hqueued y hy
    | cons c work =>
      simp only [hwork] at hb ⊢
      have hnext : Spreading size (done ++ [c]) ⟨work, s.queued, s.found⟩ := by
        refine ⟨?_, h.nodup, h.inRange, h.found_queued⟩
        rw [h.queued_eq, hwork, List.append_assoc]
        rfl
      obtain ⟨hspreading, hwithin, hfound⟩ := hnext.foldl_note (fronts.of c) (hfronts c)
      refine ih hspreading ?_ ?_ (hb.imp_left (hwithin.queued b))
      · rw [List.length_append, List.length_singleton]
        omega
      · intro d hd z hz
        rcases List.mem_append.mp hd with hd | hd
        · exact hwithin.found z (hdone d hd z hz)
        · rw [List.mem_singleton.mp hd] at hz
          exact hfound z hz

/-- **The iterated frontier is closed**: it holds the frontiers of the blocks it is of, and of the
blocks it holds. -/
theorem iteratedFrontier_closed {fronts : Table} {blocks : List Nat} (hnodup : blocks.Nodup)
    (hrange : ∀ b ∈ blocks, b < fronts.size) (hfronts : ∀ b, ∀ y ∈ fronts.of b, y < fronts.size)
    (hb : b ∈ blocks ∨ b ∈ iteratedFrontier fronts blocks) (hy : y ∈ fronts.of b) :
    y ∈ iteratedFrontier fronts blocks := by
  have hstart : Spreading fronts.size [] ⟨blocks, blocks, []⟩ :=
    ⟨rfl, hnodup, hrange, fun _ hb => by cases hb⟩
  exact hstart.run_closed hfronts _ (by simp) (fun _ hd => by cases hd) b hb y hy

/-- The least set that holds the frontiers of some blocks and of the blocks it holds itself. -/
inductive InIteratedFrontier (frontier : Nat → Nat → Prop) (start : Nat → Prop) : Nat → Prop where
  | of_start {d y : Nat} (hd : start d) (hy : frontier d y) : InIteratedFrontier frontier start y
  | of_found {d y : Nat} (hd : InIteratedFrontier frontier start d) (hy : frontier d y) :
    InIteratedFrontier frontier start y

/-- A search that has found nothing outside a set, and has nothing to look at but blocks to start
from and blocks of the set. -/
structure Justified (start J : Nat → Prop) (s : Spread) : Prop where
  work : ∀ b ∈ s.work, start b ∨ J b
  found : ∀ b ∈ s.found, J b

variable {start J : Nat → Prop}

theorem Justified.note (h : Justified start J s) (hy : J y) : Justified start J (s.note y) := by
  have hfound : ∀ b ∈ s.found ++ [y], J b := by
    intro b hb
    rcases List.mem_append.mp hb with hb | hb
    · exact h.found b hb
    · exact List.mem_singleton.mp hb ▸ hy
  unfold Spread.note
  split
  · exact h
  · split
    · exact ⟨h.work, hfound⟩
    · refine ⟨fun b hb => ?_, hfound⟩
      rcases List.mem_append.mp hb with hb | hb
      · exact h.work b hb
      · exact .inr (List.mem_singleton.mp hb ▸ hy)

theorem Justified.foldl_note (ys : List Nat) (h : Justified start J s) (hys : ∀ y ∈ ys, J y) :
    Justified start J (ys.foldl Spread.note s) := by
  induction ys generalizing s with
  | nil => exact h
  | cons y rest ih =>
    exact ih (h.note (hys y List.mem_cons_self)) fun z hz => hys z (List.mem_cons_of_mem y hz)

/-- The search finds nothing outside a set that holds the frontiers of the blocks to start from and
of its own. -/
theorem Justified.run {fronts : Table}
    (hclosed : ∀ b, start b ∨ J b → ∀ y ∈ fronts.of b, J y) (fuel : Nat)
    (h : Justified start J s) : ∀ b ∈ s.run fronts fuel, J b := by
  induction fuel generalizing s with
  | zero => exact h.found
  | succ fuel ih =>
    unfold Spread.run
    cases hwork : s.work with
    | nil => exact h.found
    | cons c work =>
      have hc : start c ∨ J c := h.work c (by rw [hwork]; exact List.mem_cons_self)
      have hrest : Justified start J ⟨work, s.queued, s.found⟩ :=
        ⟨fun b hb => h.work b (by rw [hwork]; exact List.mem_cons_of_mem c hb), h.found⟩
      exact ih (hrest.foldl_note (fronts.of c) (hclosed c hc))

/-- **The iterated frontier is the least closed set.** -/
theorem mem_iteratedFrontier_iff {fronts : Table} {blocks : List Nat} (hnodup : blocks.Nodup)
    (hrange : ∀ b ∈ blocks, b < fronts.size) (hfronts : ∀ b, ∀ y ∈ fronts.of b, y < fronts.size) :
    y ∈ iteratedFrontier fronts blocks ↔
      InIteratedFrontier (fun d y => y ∈ fronts.of d) (· ∈ blocks) y := by
  constructor
  · have hstart : Justified (· ∈ blocks)
        (InIteratedFrontier (fun d y => y ∈ fronts.of d) (· ∈ blocks)) ⟨blocks, blocks, []⟩ :=
      ⟨fun _ hb => .inl hb, fun _ hb => by cases hb⟩
    refine hstart.run (fun b hb z hz => ?_) fronts.size y
    rcases hb with hb | hb
    · exact .of_start hb hz
    · exact .of_found hb hz
  · intro hmem
    induction hmem with
    | of_start hd hz => exact iteratedFrontier_closed hnodup hrange hfronts (.inl hd) hz
    | of_found _ hz ih => exact iteratedFrontier_closed hnodup hrange hfronts (.inr ih) hz

/-- Where one relation follows another from start on, it leads to iterated frontiers that
correspond. -/
theorem InIteratedFrontier.transfer {frontier frontier' R : Nat → Nat → Prop}
    {start start' : Nat → Prop} (hstart : ∀ d, start d → ∃ d', R d d' ∧ start' d')
    (hstep : ∀ d d' y, R d d' → frontier d y → ∃ y', R y y' ∧ frontier' d' y')
    (h : InIteratedFrontier frontier start y) :
    ∃ y', R y y' ∧ InIteratedFrontier frontier' start' y' := by
  induction h with
  | @of_start d y hd hy =>
    obtain ⟨d', hR, hd'⟩ := hstart d hd
    obtain ⟨y', hRy, hy'⟩ := hstep d d' y hR hy
    exact ⟨y', hRy, .of_start hd' hy'⟩
  | @of_found d y _ hy ih =>
    obtain ⟨d', hR, hd'⟩ := ih
    obtain ⟨y', hRy, hy'⟩ := hstep d d' y hR hy
    exact ⟨y', hRy, .of_found hd' hy'⟩

end BlockFlow.Dominance
