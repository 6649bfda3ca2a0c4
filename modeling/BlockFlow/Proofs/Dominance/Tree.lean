import BlockFlow.Proofs.Dominance.Sweeps
import Mathlib.Data.List.Nodup
import Mathlib.Data.List.Perm.Subperm

/-!
# The dominator tree

Dominators of a block are comparable, so the strict dominator with the most dominators is the one
that all the others dominate (`of_tree_iff`).  A strict dominator has fewer dominators than the
block itself, which makes the links to immediate dominators a tree of a height below the number of
blocks: climbing the tree from a block leads to each of its dominators before the bound of `climb`
is used up (`climb_induction`), and on the way it meets all dominators in between and nothing else
(`mem_climb_iff`).
-/

namespace BlockFlow.Dominance

variable {preds : Table} {a b c d : Nat}

/-- The immediate dominators that follow from lists of predecessors. -/
def tree (preds : Table) : Links :=
  idoms (dominators preds)

/-- The number of dominators of a block. -/
def depth (preds : Table) (b : Nat) : Nat :=
  ((dominators preds).of b).length

/-- The strict dominator of a block that all its strict dominators dominate. -/
structure IsIdom (preds : Table) (d b : Nat) : Prop where
  dominates : Dominates preds d b
  ne : d ≠ b
  closest : ∀ c, Dominates preds c b → c ≠ b → Dominates preds c d

/-! ### Depth -/

theorem nodup_dominators (hb : b < preds.size) : ((dominators preds).of b).Nodup := by
  obtain ⟨hsettling, hstable⟩ := sweep_dominators (Nat.zero_lt_of_lt hb)
  by_cases h0 : b = 0
  · rw [h0, hsettling.entry]
    exact List.nodup_singleton 0
  · rw [← dominatorsOf_of_sweep_eq hsettling.size_eq hstable h0 hb]
    exact List.Nodup.filter _ List.nodup_range

theorem depth_le_size (hpreds : Connected preds) (hb : b < preds.size) :
    depth preds b ≤ preds.size := by
  have hsub : (dominators preds).of b ⊆ List.range preds.size := fun a ha =>
    List.mem_range.mpr (hpreds.lt_of_dominates hb ((mem_dominators_iff hpreds hb).mp ha))
  have hle := ((nodup_dominators hb).subperm hsub).length_le
  rwa [List.length_range] at hle

theorem depth_pos (hpreds : Connected preds) (hb : b < preds.size) : 0 < depth preds b :=
  List.length_pos_of_mem ((mem_dominators_iff hpreds hb).mpr (.refl preds b))

/-- A strict dominator has fewer dominators. -/
theorem depth_lt_depth (hpreds : Connected preds) (hb : b < preds.size)
    (hdom : Dominates preds d b) (hne : d ≠ b) : depth preds d < depth preds b := by
  have hd := hpreds.lt_of_dominates hb hdom
  have hnot : b ∉ (dominators preds).of d := by
    intro hmem
    exact hne (hdom.antisymm ((mem_dominators_iff hpreds hd).mp hmem) (hpreds.reached d hd))
  -- What dominates `d` dominates `b`, and `b` itself is one dominator more.
  have hsub : b :: (dominators preds).of d ⊆ (dominators preds).of b := by
    intro c hc
    rw [mem_dominators_iff hpreds hb]
    rcases List.mem_cons.mp hc with rfl | hc
    · exact .refl preds _
    · exact ((mem_dominators_iff hpreds hd).mp hc).trans hdom
  have hnodup := List.nodup_cons.mpr ⟨hnot, nodup_dominators hd⟩
  have hle := (hnodup.subperm hsub).length_le
  rw [List.length_cons] at hle
  exact hle

/-! ### Immediate dominators -/

/-- Going through candidates ends at one that has the most dominators. -/
theorem exists_foldl_deeper (doms : Table) (candidates : List Nat) (best : Nat) :
    ∃ d, candidates.foldl (deeper doms) (some best) = some d ∧ (d = best ∨ d ∈ candidates) ∧
      ∀ c, c = best ∨ c ∈ candidates → (doms.of c).length ≤ (doms.of d).length := by
  induction candidates generalizing best with
  | nil =>
    refine ⟨best, rfl, .inl rfl, ?_⟩
    rintro c (rfl | hc)
    · exact Nat.le_refl _
    · cases hc
  | cons e rest ih =>
    by_cases hlt : (doms.of best).length < (doms.of e).length
    · have hdeeper : deeper doms (some best) e = some e := if_pos hlt
      rw [List.foldl_cons, hdeeper]
      obtain ⟨d, hfold, hd, hmost⟩ := ih e
      refine ⟨d, hfold, .inr (List.mem_cons.mpr hd), ?_⟩
      rintro c (rfl | hc)
      · exact Nat.le_trans (Nat.le_of_lt hlt) (hmost e (.inl rfl))
      · exact hmost c (List.mem_cons.mp hc)
    · have hdeeper : deeper doms (some best) e = some best := if_neg hlt
      rw [List.foldl_cons, hdeeper]
      obtain ⟨d, hfold, hd, hmost⟩ := ih best
      refine ⟨d, hfold, hd.imp_right (List.mem_cons_of_mem e), ?_⟩
      rintro c (rfl | hc)
      · exact hmost c (.inl rfl)
      · rcases List.mem_cons.mp hc with rfl | hc
        · exact Nat.le_trans (Nat.le_of_not_lt hlt) (hmost best (.inl rfl))
        · exact hmost c (.inr hc)

/-- A block other than the entry has an immediate dominator, which `idomOf` finds. -/
theorem exists_idomOf (hpreds : Connected preds) (hb : b < preds.size) (h0 : b ≠ 0) :
    ∃ d, idomOf (dominators preds) b = some d ∧ IsIdom preds d b := by
  have hstrict : ∀ c, c ∈ ((dominators preds).of b).filter (· != b) ↔
      Dominates preds c b ∧ c ≠ b := by
    intro c
    rw [List.mem_filter, mem_dominators_iff hpreds hb]
    simp
  rw [idomOf, if_neg h0]
  cases hfilter : ((dominators preds).of b).filter (· != b) with
  | nil =>
    have hentry := (hstrict 0).mpr ⟨entry_dominates preds b, Ne.symm h0⟩
    rw [hfilter] at hentry
    cases hentry
  | cons e rest =>
    rw [hfilter] at hstrict
    obtain ⟨d, hfold, hd, hmost⟩ := exists_foldl_deeper (dominators preds) rest e
    obtain ⟨hdom, hne⟩ := (hstrict d).mp (List.mem_cons.mpr hd)
    refine ⟨d, hfold, hdom, hne, fun c hc hcb => ?_⟩
    rcases hc.total hdom (hpreds.reached b hb) with hcd | hdc
    · exact hcd
    · -- The candidate with the most dominators dominates another one only if it is the same.
      by_cases heq : d = c
      · exact heq ▸ .refl preds d
      · have hlt := depth_lt_depth hpreds (hpreds.lt_of_dominates hb hc) hdc heq
        have hle := hmost c (List.mem_cons.mp ((hstrict c).mpr ⟨hc, hcb⟩))
        exact absurd hle (Nat.not_le_of_lt hlt)

theorem size_tree (preds : Table) : (tree preds).size = preds.size :=
  Array.size_ofFn.trans (size_dominators preds)

theorem of_tree (hb : b < preds.size) : (tree preds).of b = idomOf (dominators preds) b := by
  simp [tree, idoms, Links.of, size_dominators, hb]

theorem IsIdom.unique (hpreds : Connected preds) (hb : b < preds.size) (h : IsIdom preds c b)
    (h' : IsIdom preds d b) : c = d :=
  (h'.closest c h.dominates h.ne).antisymm (h.closest d h'.dominates h'.ne)
    (hpreds.reached c (hpreds.lt_of_dominates hb h.dominates))

/-- **The links of the tree are the immediate dominators.** -/
theorem of_tree_iff (hpreds : Connected preds) (hb : b < preds.size) :
    (tree preds).of b = some d ↔ b ≠ 0 ∧ IsIdom preds d b := by
  rw [of_tree hb]
  constructor
  · intro h
    have h0 : b ≠ 0 := by
      rintro rfl
      cases h
    obtain ⟨e, he, hidom⟩ := exists_idomOf hpreds hb h0
    rw [he] at h
    exact ⟨h0, Option.some.inj h ▸ hidom⟩
  · rintro ⟨h0, hidom⟩
    obtain ⟨e, he, hidom'⟩ := exists_idomOf hpreds hb h0
    rw [he, hidom.unique hpreds hb hidom']

theorem lt_of_of_tree (h : (tree preds).of b = some d) : b < preds.size := by
  by_contra hnot
  have hnone : (tree preds)[b]? = none :=
    Array.getElem?_eq_none (by rw [size_tree]; omega)
  rw [Links.of, hnone] at h
  cases h

/-- A block that has a link to another has it to its immediate dominator. -/
theorem isIdom_of_of_tree (hpreds : Connected preds) (h : (tree preds).of b = some d) :
    b ≠ 0 ∧ IsIdom preds d b :=
  (of_tree_iff hpreds (lt_of_of_tree h)).mp h

theorem mem_childrenOf : c ∈ (tree preds).childrenOf b ↔ (tree preds).of c = some b := by
  rw [Links.childrenOf, List.mem_filter, beq_iff_eq, List.mem_range, size_tree]
  exact ⟨fun h => h.2, fun h => ⟨lt_of_of_tree h, h⟩⟩

/-- What holds of a block and is handed down from immediate dominators holds of all that the block
dominates. -/
theorem dominated_induction (hpreds : Connected preds) {P : Nat → Prop} (ha : P a)
    (hstep : ∀ d c, (tree preds).of c = some d → Dominates preds a d → P d → P c)
    (hb : b < preds.size) (hdom : Dominates preds a b) : P b := by
  -- The induction is on the depth, which a step up the tree makes smaller.
  induction hn : depth preds b using Nat.strongRecOn generalizing b with
  | _ n ih =>
    by_cases hab : a = b
    · exact hab ▸ ha
    · have h0 : b ≠ 0 := by
        rintro rfl
        exact hab (dominates_entry_iff.mp hdom)
      obtain ⟨d, hd, hidom⟩ := exists_idomOf hpreds hb h0
      rw [← of_tree hb] at hd
      have hlt := depth_lt_depth hpreds hb hidom.dominates hidom.ne
      have had := hidom.closest a hdom hab
      exact hstep d b hd had (ih _ (hn ▸ hlt) (hpreds.lt_of_dominates hb hidom.dominates) had rfl)

/-- What a block strictly dominates lies below one of its children. -/
theorem exists_child (hpreds : Connected preds) (hb : b < preds.size) (hdom : Dominates preds a b)
    (hne : b ≠ a) : ∃ c, (tree preds).of c = some a ∧ Dominates preds c b := by
  have hchild : b = a ∨ ∃ c, (tree preds).of c = some a ∧ Dominates preds c b := by
    refine dominated_induction hpreds (P := fun b => b = a ∨ ∃ c, (tree preds).of c = some a ∧
      Dominates preds c b) (.inl rfl) ?_ hb hdom
    rintro d c hlink - (rfl | ⟨e, he, hbelow⟩)
    · exact .inr ⟨c, hlink, .refl preds c⟩
    · exact .inr ⟨e, he, hbelow.trans (isIdom_of_of_tree hpreds hlink).2.dominates⟩
  exact hchild.resolve_left hne

/-- The trees below a block have nothing in common. -/
theorem siblings_disjoint (hpreds : Connected preds) {c' k : Nat} (hc : (tree preds).of c = some d)
    (hc' : (tree preds).of c' = some d) (hne : c ≠ c') (hk : k < preds.size)
    (hdom : Dominates preds c k) : ¬ Dominates preds c' k := by
  intro hdom'
  have hidom := (isIdom_of_of_tree hpreds hc).2
  have hidom' := (isIdom_of_of_tree hpreds hc').2
  have hd := hpreds.reached d (hpreds.lt_of_dominates (lt_of_of_tree hc) hidom.dominates)
  rcases hdom.total hdom' (hpreds.reached k hk) with h | h
  · exact hidom.ne (hidom.dominates.antisymm (hidom'.closest c h hne) hd)
  · exact hidom'.ne (hidom'.dominates.antisymm (hidom.closest c' h (Ne.symm hne)) hd)

/-! ### Climbing -/

/-- A climb that has not reached its end goes on with the immediate dominator. -/
theorem exists_climb_eq (hpreds : Connected preds) (hb : b < preds.size)
    (hdom : Dominates preds d b) (hne : b ≠ d) (fuel : Nat) :
    ∃ up, (tree preds).of b = some up ∧ IsIdom preds up b ∧
      climb (tree preds) (some d) (fuel + 1) b = b :: climb (tree preds) (some d) fuel up := by
  have h0 : b ≠ 0 := by
    rintro rfl
    exact hne (dominates_entry_iff.mp hdom).symm
  obtain ⟨up, hup, hidom⟩ := exists_idomOf hpreds hb h0
  rw [← of_tree hb] at hup
  refine ⟨up, hup, hidom, ?_⟩
  rw [climb, if_neg fun h => hne (Option.some.inj h), hup]

/-- What holds of a block, and of every block on a climb up to it if it holds of the one above,
holds of the block at which the climb starts. -/
theorem climb_induction (hpreds : Connected preds) {P : Nat → Prop} (hd : P d)
    (hb : b < preds.size) (hdom : Dominates preds d b) {fuel : Nat} (hfuel : depth preds b ≤ fuel)
    (hstep : ∀ c up, c ∈ climb (tree preds) (some d) fuel b → (tree preds).of c = some up →
      P up → P c) : P b := by
  -- A step up the tree takes one from the bound and at least one from the depth.
  induction fuel generalizing b with
  | zero =>
    have hpos := depth_pos hpreds hb
    omega
  | succ fuel ih =>
    by_cases hbd : b = d
    · exact hbd ▸ hd
    · obtain ⟨up, hup, hidom, hclimb⟩ := exists_climb_eq hpreds hb hdom hbd fuel
      rw [hclimb] at hstep
      have hlt := depth_lt_depth hpreds hb hidom.dominates hidom.ne
      refine hstep b up List.mem_cons_self hup ?_
      exact ih (hpreds.lt_of_dominates hb hidom.dominates)
        (hidom.closest d hdom (Ne.symm hbd)) (by omega)
        fun c up' hc => hstep c up' (List.mem_cons_of_mem b hc)

/-- **What a climb meets.**  From a block up to one of its dominators the tree leads through the
dominators of the former that do not dominate the latter. -/
theorem mem_climb_iff (hpreds : Connected preds) (hb : b < preds.size)
    (hdom : Dominates preds d b) {fuel : Nat} (hfuel : depth preds b ≤ fuel) :
    c ∈ climb (tree preds) (some d) fuel b ↔ Dominates preds c b ∧ ¬ Dominates preds c d := by
  induction fuel generalizing b with
  | zero =>
    have hpos := depth_pos hpreds hb
    omega
  | succ fuel ih =>
    by_cases hbd : b = d
    · subst hbd
      rw [climb, if_pos rfl]
      constructor
      · intro hc
        cases hc
      · rintro ⟨hc, hnot⟩
        exact absurd hc hnot
    · obtain ⟨up, _, hidom, hclimb⟩ := exists_climb_eq hpreds hb hdom hbd fuel
      have hlt := depth_lt_depth hpreds hb hidom.dominates hidom.ne
      have habove := ih (hpreds.lt_of_dominates hb hidom.dominates)
        (hidom.closest d hdom (Ne.symm hbd)) (by omega)
      rw [hclimb, List.mem_cons, habove]
      constructor
      · rintro (rfl | ⟨hup, hnot⟩)
        · refine ⟨.refl preds _, fun hcd => ?_⟩
          exact hbd (hcd.antisymm hdom (hpreds.reached _ hb))
        · exact ⟨hup.trans hidom.dominates, hnot⟩
      · rintro ⟨hcb, hnot⟩
        by_cases heq : c = b
        · exact .inl heq
        · exact .inr ⟨hidom.closest c hcb heq, hnot⟩

end BlockFlow.Dominance
