import BlockFlow.Proofs.Dominance.Ways
import Mathlib.Algebra.Order.BigOperators.Group.List
import Mathlib.Algebra.Order.Group.Nat
import Mathlib.Algebra.Ring.Nat

/-!
# Sweeps settle at the dominators

The sweeps of `dominators` replace one entry of a table after the other, and a sweep reads entries
that it has replaced itself.  Two things are kept by every replacement: an entry never gains a block
(`Settling`), and it never loses a block that does dominate (`Covers`).

The first makes the sweeps settle.  A sweep that changes a table makes some entry shorter and none
longer, so the length of all entries together counts down, and the bound of `dominators` exceeds it
at the start (`sweep_dominators`).  The second, with the fact that a settled table says the same of
a block as of all its predecessors, makes the settled table the table of the dominators
(`mem_dominators_iff`).
-/

namespace BlockFlow.Dominance

variable {preds table table' : Table} {a b c : Nat}

/-! ### Tables -/

theorem Table.of_setIfInBounds (table : Table) (b c : Nat) (entry : List Nat) :
    Table.of (table.setIfInBounds b entry) c =
      if b = c ∧ b < table.size then entry else table.of c := by
  unfold Table.of
  rw [Array.getElem?_setIfInBounds]
  by_cases hbc : b = c
  · subst hbc
    by_cases hb : b < table.size
    · simp [hb]
    · simp [hb]
  · simp [hbc]

theorem Table.ext (hsize : table.size = table'.size)
    (h : ∀ b < table.size, table.of b = table'.of b) : table = table' := by
  refine Array.ext hsize fun b hb hb' => ?_
  have hof := h b hb
  unfold Table.of at hof
  rwa [Array.getElem?_eq_getElem hb, Array.getElem?_eq_getElem hb'] at hof

/-- No entry of the first table has anything that the second one lacks. -/
structure Below (table table' : Table) : Prop where
  size_eq : table.size = table'.size
  sublist : ∀ b, (table.of b).Sublist (table'.of b)

theorem Below.refl (table : Table) : Below table table :=
  ⟨rfl, fun _ => List.Sublist.refl _⟩

theorem Below.trans {table'' : Table} (h : Below table table') (h' : Below table' table'') :
    Below table table'' :=
  ⟨h.size_eq.trans h'.size_eq, fun b => (h.sublist b).trans (h'.sublist b)⟩

/-- The length of all entries of a table together. -/
def weight (table : Table) : Nat :=
  ((List.range table.size).map fun b => (table.of b).length).sum

/-- A table below another one weighs less. -/
theorem Below.weight_lt (h : Below table table') (hne : table ≠ table') :
    weight table < weight table' := by
  unfold weight
  rw [h.size_eq]
  refine List.sum_lt_sum _ _ (fun b _ => (h.sublist b).length_le) ?_
  -- If no entry were shorter, all would be the same, and so would the tables.
  by_contra hall
  refine hne (Table.ext h.size_eq fun b hb => ?_)
  refine (h.sublist b).eq_of_length_le ?_
  by_contra hlt
  exact hall ⟨b, List.mem_range.mpr (h.size_eq ▸ hb), Nat.lt_of_not_le hlt⟩

/-! ### One replacement -/

theorem mem_dominatorsOf : a ∈ dominatorsOf preds table b ↔ a < preds.size ∧
    (a = b ∨ preds.of b ≠ [] ∧ ∀ p ∈ preds.of b, a ∈ table.of p) := by
  simp [dominatorsOf]

/-- A sweep takes less from a table that has less. -/
theorem dominatorsOf_mono (preds : Table) (h : Below table table') (b : Nat) :
    (dominatorsOf preds table b).Sublist (dominatorsOf preds table' b) := by
  refine List.monotone_filter_right _ fun a ha => ?_
  simp only [Bool.or_eq_true, beq_iff_eq, Bool.and_eq_true, Bool.not_eq_true',
    List.isEmpty_eq_false_iff, List.all_eq_true, List.contains_iff_mem] at ha ⊢
  exact ha.imp_right fun ⟨hne, hall⟩ => ⟨hne, fun p hp => (h.sublist p).subset (hall p hp)⟩

/-- The table with the entry of one block replaced, as a sweep does it. -/
def renew (preds table : Table) (b : Nat) : Table :=
  table.setIfInBounds b (dominatorsOf preds table b)

theorem size_renew : (renew preds table b).size = table.size :=
  Array.size_setIfInBounds

theorem of_renew (hb : b < table.size) (c : Nat) : (renew preds table b).of c =
    if b = c then dominatorsOf preds table b else table.of c := by
  rw [renew, Table.of_setIfInBounds]
  simp only [hb, and_true]

/-- The blocks whose entries a sweep replaces. -/
theorem mem_sweep_range (hb : b ∈ List.range' 1 (preds.size - 1)) : b ≠ 0 ∧ b < preds.size := by
  rw [List.mem_range'_1] at hb
  omega

/-- A table at which the sweeps may arrive: the entry of the graph stands for itself alone, and no
replacement would add anything. -/
structure Settling (preds table : Table) : Prop where
  size_eq : table.size = preds.size
  entry : table.of 0 = [0]
  shrinks : ∀ b, b ≠ 0 → b < preds.size → (dominatorsOf preds table b).Sublist (table.of b)

theorem Settling.below_renew (h : Settling preds table) (hb : b ≠ 0) (hlt : b < preds.size) :
    Below (renew preds table b) table := by
  refine ⟨size_renew, fun c => ?_⟩
  rw [of_renew (h.size_eq ▸ hlt)]
  by_cases hbc : b = c
  · rw [if_pos hbc, ← hbc]
    exact h.shrinks b hb hlt
  · rw [if_neg hbc]

theorem Settling.renew (h : Settling preds table) (hb : b ≠ 0) (hlt : b < preds.size) :
    Settling preds (renew preds table b) where
  size_eq := size_renew.trans h.size_eq
  entry := by rw [of_renew (h.size_eq ▸ hlt), if_neg hb, h.entry]
  shrinks := by
    -- A replacement in the smaller table takes no more than one in the table before.
    intro c hc hclt
    have hmono := dominatorsOf_mono preds (h.below_renew hb hlt) c
    rw [of_renew (h.size_eq ▸ hlt)]
    by_cases hbc : b = c
    · rw [if_pos hbc, hbc]
      rw [hbc] at hmono
      exact hmono
    · rw [if_neg hbc]
      exact hmono.trans (h.shrinks c hc hclt)

/-- A table that has every block among what dominates it. -/
def Covers (preds table : Table) : Prop :=
  ∀ b < preds.size, ∀ a, Dominates preds a b → a ∈ table.of b

theorem Covers.renew (hpreds : Connected preds) (hsize : table.size = preds.size)
    (h : Covers preds table) (hb : b ≠ 0) (hlt : b < preds.size) :
    Covers preds (renew preds table b) := by
  intro c hc a hdom
  rw [of_renew (hsize ▸ hlt)]
  by_cases hbc : b = c
  · subst hbc
    rw [if_pos rfl, mem_dominatorsOf]
    refine ⟨hpreds.lt_of_dominates hc hdom, ?_⟩
    by_cases hab : a = b
    · exact .inl hab
    · -- A strict dominator dominates the predecessors, whose entries have it still.
      obtain ⟨p, hp⟩ := hpreds.exists_pred hc hb
      refine .inr ⟨List.ne_nil_of_mem hp, fun q hq => ?_⟩
      exact h q (hpreds.lt_size hq) a (hdom.of_pred (Ne.symm hab) hq)
  · rw [if_neg hbc]
    exact h c hc a hdom

/-! ### Whole sweeps -/

/-- What every replacement keeps is kept by a sweep. -/
theorem sweep_induction {P : Table → Prop}
    (hstep : ∀ table b, b ≠ 0 → b < preds.size → P table → P (renew preds table b))
    (h : P table) : P (sweep preds table) := by
  have hfold : ∀ (blocks : List Nat) (table : Table), (∀ b ∈ blocks, b ≠ 0 ∧ b < preds.size) →
      P table → P (blocks.foldl (renew preds) table) := by
    intro blocks
    induction blocks with
    | nil => exact fun _ _ h => h
    | cons b rest ih =>
      intro table hblocks h
      obtain ⟨hb, hlt⟩ := hblocks b List.mem_cons_self
      exact ih _ (fun c hc => hblocks c (List.mem_cons_of_mem b hc)) (hstep table b hb hlt h)
  exact hfold _ table (fun _ => mem_sweep_range) h

theorem Settling.sweep (h : Settling preds table) :
    Settling preds (sweep preds table) ∧ Below (sweep preds table) table := by
  refine sweep_induction (P := fun t => Settling preds t ∧ Below t table) ?_ ⟨h, .refl table⟩
  rintro t b hb hlt ⟨hsettling, hbelow⟩
  exact ⟨hsettling.renew hb hlt, (hsettling.below_renew hb hlt).trans hbelow⟩

theorem Covers.sweep (hpreds : Connected preds) (hsize : table.size = preds.size)
    (h : Covers preds table) : Covers preds (sweep preds table) := by
  have hboth : (Dominance.sweep preds table).size = preds.size ∧
      Covers preds (Dominance.sweep preds table) := by
    refine sweep_induction (P := fun t => t.size = preds.size ∧ Covers preds t) ?_ ⟨hsize, h⟩
    rintro t b hb hlt ⟨hsize, hcovers⟩
    exact ⟨size_renew.trans hsize, hcovers.renew hpreds hsize hb hlt⟩
  exact hboth.2

/-- Entries that are replaced by none of some replacements stay as they are. -/
theorem of_foldl_renew (preds : Table) (blocks : List Nat) (table : Table) (hb : b ∉ blocks) :
    (blocks.foldl (renew preds) table).of b = table.of b := by
  induction blocks generalizing table with
  | nil => rfl
  | cons c rest ih =>
    rw [List.mem_cons, not_or] at hb
    rw [List.foldl_cons, ih _ hb.2, renew, Table.of_setIfInBounds,
      if_neg fun h => hb.1 h.1.symm]

/-- If a sweep changes nothing, then neither does any of its replacements. -/
theorem dominatorsOf_of_sweep_eq (hsize : table.size = preds.size)
    (h : sweep preds table = table) (hb : b ≠ 0) (hlt : b < preds.size) :
    dominatorsOf preds table b = table.of b := by
  -- Each entry is replaced once, so what it was replaced by is what it is at the end.
  have hfold : ∀ blocks : List Nat, blocks.Nodup → (∀ c ∈ blocks, c < table.size) →
      blocks.foldl (renew preds) table = table →
      ∀ c ∈ blocks, dominatorsOf preds table c = table.of c := by
    intro blocks
    induction blocks with
    | nil => exact fun _ _ _ c hc => by cases hc
    | cons c rest ih =>
      intro hnodup hrange heq
      obtain ⟨hnot, hnodup⟩ := List.nodup_cons.mp hnodup
      have hc : dominatorsOf preds table c = table.of c := by
        have hof := of_foldl_renew preds rest (renew preds table c) hnot
        rw [← List.foldl_cons, heq, of_renew (hrange c List.mem_cons_self), if_pos rfl] at hof
        exact hof.symm
      have hsame : renew preds table c = table := by
        refine Table.ext size_renew fun d _ => ?_
        rw [of_renew (hrange c List.mem_cons_self)]
        split
        · next hcd => rw [← hcd, hc]
        · rfl
      rw [List.foldl_cons, hsame] at heq
      intro d hd
      rcases List.mem_cons.mp hd with rfl | hd
      · exact hc
      · exact ih hnodup (fun e he => hrange e (List.mem_cons_of_mem c he)) heq d hd
  refine hfold (List.range' 1 (preds.size - 1)) List.nodup_range' (fun c hc => ?_) h b ?_
  · exact hsize ▸ (mem_sweep_range hc).2
  · rw [List.mem_range'_1]
    omega

/-! ### The settled table -/

/-- Enough sweeps settle, and keep what every sweep keeps. -/
theorem settle_induction {P : Table → Prop}
    (hstep : ∀ table, Settling preds table → P table → P (sweep preds table)) (fuel : Nat)
    (table : Table) (h : Settling preds table) (hP : P table) (hfuel : weight table < fuel) :
    Settling preds (settle preds fuel table) ∧ P (settle preds fuel table) ∧
      sweep preds (settle preds fuel table) = settle preds fuel table := by
  induction fuel generalizing table with
  | zero => omega
  | succ fuel ih =>
    unfold settle
    by_cases heq : sweep preds table = table
    · simp only [heq, if_true]
      exact ⟨h, hP, trivial⟩
    · simp only [if_neg heq]
      obtain ⟨hsettling, hbelow⟩ := h.sweep
      have hweight := hbelow.weight_lt heq
      exact ih _ hsettling (hstep table h hP) (by omega)

theorem of_everything {size : Nat} (hb : b < size) :
    (everything size).of b = if b = 0 then [0] else List.range size := by
  simp [everything, Table.of, hb]

theorem weight_everything (size : Nat) : weight (everything size) ≤ size * size := by
  have hsize : (everything size).size = size := Array.size_ofFn
  have hle := List.sum_le_card_nsmul
    ((List.range size).map fun b => ((everything size).of b).length) size ?_
  · rw [List.length_map, List.length_range] at hle
    rw [weight, hsize]
    exact hle
  · intro n hn
    obtain ⟨b, hb, rfl⟩ := List.mem_map.mp hn
    rw [of_everything (List.mem_range.mp hb)]
    split
    · exact Nat.zero_lt_of_lt (List.mem_range.mp hb)
    · rw [List.length_range]

theorem settling_everything (hsize : 0 < preds.size) :
    Settling preds (everything preds.size) where
  size_eq := Array.size_ofFn
  entry := by rw [of_everything hsize, if_pos rfl]
  shrinks := by
    intro b hb hlt
    rw [of_everything hlt, if_neg hb]
    exact List.filter_sublist

theorem covers_everything (hpreds : Connected preds) : Covers preds (everything preds.size) := by
  intro b hb a hdom
  rw [of_everything hb]
  split
  · next h =>
    rw [h] at hdom
    rw [dominates_entry_iff.mp hdom]
    exact List.mem_singleton.mpr rfl
  · exact List.mem_range.mpr (hpreds.lt_of_dominates hb hdom)

/-- **The sweeps settle**, whatever the lists of predecessors are. -/
theorem sweep_dominators (hsize : 0 < preds.size) : Settling preds (dominators preds) ∧
    sweep preds (dominators preds) = dominators preds := by
  obtain ⟨hsettling, -, hstable⟩ := settle_induction (P := fun _ => True) (fun _ _ _ => trivial) _ _
    (settling_everything hsize) trivial (Nat.lt_succ_of_le (weight_everything preds.size))
  exact ⟨hsettling, hstable⟩

theorem covers_dominators (hpreds : Connected preds) (hsize : 0 < preds.size) :
    Covers preds (dominators preds) :=
  (settle_induction (P := Covers preds)
    (fun _ hsettling hcovers => hcovers.sweep hpreds hsettling.size_eq) _ _
    (settling_everything hsize) (covers_everything hpreds)
    (Nat.lt_succ_of_le (weight_everything preds.size))).2.1

/-- In a settled table nothing dominates a block that a way to it avoids. -/
theorem not_mem_dominators_of_way (hpreds : Connected preds) (hway : Way preds (· ≠ a) b)
    (hb : b < preds.size) : a ∉ (dominators preds).of b := by
  obtain ⟨hsettling, hstable⟩ := sweep_dominators (Nat.zero_lt_of_lt hb)
  -- Along a way that avoids the block, each entry lacks it because that of a predecessor does.
  induction hway with
  | entry hne =>
    rw [hsettling.entry, List.mem_singleton]
    exact Ne.symm hne
  | @step p b _ hp hne ih =>
    by_cases h0 : b = 0
    · rw [h0, hsettling.entry, List.mem_singleton]
      exact fun h => hne (h0.trans h.symm)
    · rw [← dominatorsOf_of_sweep_eq hsettling.size_eq hstable h0 hb, mem_dominatorsOf]
      rintro ⟨-, hab | ⟨-, hall⟩⟩
      · exact hne hab.symm
      · exact ih (hpreds.lt_size hp) (hall p hp)

/-- **The settled table is dominance.** -/
theorem mem_dominators_iff (hpreds : Connected preds) (hb : b < preds.size) :
    a ∈ (dominators preds).of b ↔ Dominates preds a b := by
  constructor
  · intro hmem hway
    exact not_mem_dominators_of_way hpreds hway hb hmem
  · intro hdom
    exact covers_dominators hpreds (Nat.zero_lt_of_lt hb) b hb a hdom

theorem size_settle (fuel : Nat) (table : Table) : (settle preds fuel table).size = table.size := by
  induction fuel generalizing table with
  | zero => rfl
  | succ fuel ih =>
    have hsize : (sweep preds table).size = table.size :=
      sweep_induction (P := fun t => t.size = table.size)
        (fun _ _ _ _ h => size_renew.trans h) rfl
    unfold settle
    by_cases heq : sweep preds table = table
    · simp only [heq, if_true]
    · simp only [if_neg heq]
      exact (ih _).trans hsize

theorem size_dominators (preds : Table) : (dominators preds).size = preds.size :=
  (size_settle _ _).trans Array.size_ofFn

end BlockFlow.Dominance
