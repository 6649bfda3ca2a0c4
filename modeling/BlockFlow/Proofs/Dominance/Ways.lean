import BlockFlow.Ssa.Dominance
import Mathlib.Tactic.ByContra

/-!
# Ways and dominance

A way leads from the entry along predecessor links to a block.  Ways are told apart only by what
holds of all blocks on them: `Way preds P b` says that some way to `b` has the property `P` all
along.  A block dominates another when no way to the other avoids it.

Almost every law of dominance is then proved by carrying one way, or the absence of one, along
another.  The law that gives dominators the shape of a tree is `Dominates.total`: of two dominators
of a block one dominates the other.  If each could be reached without the other, then following any
way to the block and switching, wherever it meets one of them, to the way that leads there without
the other would avoid one of the two altogether.
-/

namespace BlockFlow.Dominance

/-- Some way from the entry to a block has a property all along, both ends included. -/
inductive Way (preds : Table) (P : Nat → Prop) : Nat → Prop where
  | entry (h : P 0) : Way preds P 0
  | step {p b : Nat} (h : Way preds P p) (hp : p ∈ preds.of b) (hb : P b) : Way preds P b

/-- Every way from the entry to `b` leads through `a`. -/
def Dominates (preds : Table) (a b : Nat) : Prop :=
  ¬ Way preds (· ≠ a) b

/-- The blocks of a table of predecessors can all be reached, and no others are listed. -/
structure Connected (preds : Table) : Prop where
  lt_size : ∀ {b p : Nat}, p ∈ preds.of b → p < preds.size
  reached : ∀ b < preds.size, Way preds (fun _ => True) b

variable {preds : Table} {a b c p : Nat}

namespace Way

variable {P Q : Nat → Prop}

theorem holds (h : Way preds P b) : P b := by
  cases h with
  | entry h => exact h
  | step _ _ hb => exact hb

theorem mono (h : Way preds P b) (himp : ∀ c, P c → Q c) : Way preds Q b := by
  induction h with
  | entry h => exact .entry (himp 0 h)
  | step _ hp hb ih => exact ih.step hp (himp _ hb)

/-- A way to a block that is not the entry comes through a predecessor. -/
theorem exists_pred (h : Way preds P b) (hb : b ≠ 0) : ∃ p ∈ preds.of b, Way preds P p := by
  cases h with
  | entry => exact absurd rfl hb
  | step h hp => exact ⟨_, hp, h⟩

end Way

namespace Dominates

theorem refl (preds : Table) (b : Nat) : Dominates preds b b :=
  fun h => h.holds rfl

/-- A way that avoids `a` meets no block that `a` dominates. -/
theorem avoid (h : Dominates preds a c) (hway : Way preds (· ≠ a) b) : Way preds (· ≠ c) b := by
  induction hway with
  | entry hne => exact .entry fun heq => h (heq ▸ .entry hne)
  | step hway hp hne ih => exact ih.step hp fun heq => h (heq ▸ hway.step hp hne)

theorem trans (h : Dominates preds a c) (h' : Dominates preds c b) : Dominates preds a b :=
  fun hway => h' (h.avoid hway)

/-- Two blocks that dominate each other are the same, if one of them can be reached at all. -/
theorem antisymm (h : Dominates preds a b) (h' : Dominates preds b a)
    (ha : Way preds (fun _ => True) a) : a = b := by
  by_contra hne
  -- Neither can be the first to be met, so every way avoids both.
  have havoid : ∀ c, Way preds (fun _ => True) c → Way preds (· ≠ a) c ∧ Way preds (· ≠ b) c := by
    intro c hway
    induction hway with
    | entry =>
      have ha0 : 0 ≠ a := fun heq => h' (heq ▸ .entry (heq.trans_ne hne))
      have hb0 : 0 ≠ b := fun heq => h (heq ▸ .entry (heq.trans_ne (Ne.symm hne)))
      exact ⟨.entry ha0, .entry hb0⟩
    | @step q c _ hq _ ih =>
      obtain ⟨iha, ihb⟩ := ih
      have hca : c ≠ a := fun heq => h' (heq ▸ ihb.step hq (heq.trans_ne hne))
      have hcb : c ≠ b := fun heq => h (heq ▸ iha.step hq (heq.trans_ne (Ne.symm hne)))
      exact ⟨iha.step hq hca, ihb.step hq hcb⟩
  exact (havoid a ha).1.holds rfl

/-- **Dominators of a block are comparable.** -/
theorem total (ha : Dominates preds a b) (hc : Dominates preds c b)
    (hb : Way preds (fun _ => True) b) : Dominates preds a c ∨ Dominates preds c a := by
  by_contra hnot
  rw [not_or] at hnot
  have hac : Way preds (· ≠ a) c := Classical.not_not.mp hnot.1
  have hca : Way preds (· ≠ c) a := Classical.not_not.mp hnot.2
  have heither : ∀ d, Way preds (fun _ => True) d → Way preds (· ≠ a) d ∨ Way preds (· ≠ c) d := by
    intro d hway
    induction hway with
    | entry =>
      by_cases h : 0 = a
      · exact .inr (h ▸ hca)
      · exact .inl (.entry h)
    | @step q d _ hq _ ih =>
      rcases ih with ih | ih
      · by_cases h : d = a
        · exact .inr (h ▸ hca)
        · exact .inl (ih.step hq h)
      · by_cases h : d = c
        · exact .inl (h ▸ hac)
        · exact .inr (ih.step hq h)
  rcases heither b hb with h | h
  · exact ha h
  · exact hc h

/-- A block that dominates another, and is not the same, dominates its predecessors. -/
theorem of_pred (h : Dominates preds a b) (hne : b ≠ a) (hp : p ∈ preds.of b) :
    Dominates preds a p :=
  fun hway => h (hway.step hp hne)

/-- What dominates all predecessors of a block other than the entry dominates the block. -/
theorem of_forall_pred (hb : b ≠ 0) (h : ∀ p ∈ preds.of b, Dominates preds a p) :
    Dominates preds a b := by
  intro hway
  obtain ⟨p, hp, hway⟩ := hway.exists_pred hb
  exact h p hp hway

end Dominates

theorem entry_dominates (preds : Table) (b : Nat) : Dominates preds 0 b := by
  intro hway
  induction hway with
  | entry h => exact h rfl
  | step _ _ _ ih => exact ih

theorem dominates_entry_iff : Dominates preds a 0 ↔ a = 0 := by
  constructor
  · intro h
    by_contra hne
    exact h (.entry (Ne.symm hne))
  · rintro rfl
    exact .refl preds 0

namespace Connected

variable (h : Connected preds)

include h

/-- A block other than the entry has a predecessor. -/
theorem exists_pred (hb : b < preds.size) (hne : b ≠ 0) : ∃ p, p ∈ preds.of b := by
  obtain ⟨p, hp, _⟩ := (h.reached b hb).exists_pred hne
  exact ⟨p, hp⟩

/-- What dominates a block is a block. -/
theorem lt_of_dominates (hb : b < preds.size) (hdom : Dominates preds a b) : a < preds.size := by
  by_contra hnot
  have hway : ∀ c, Way preds (fun _ => True) c → c < preds.size → Way preds (· < preds.size) c := by
    intro c hway
    induction hway with
    | entry => exact fun hc => .entry hc
    | step _ hp _ ih => exact fun hc => (ih (h.lt_size hp)).step hp hc
  exact hdom ((hway b (h.reached b hb) hb).mono fun c hc heq => hnot (heq ▸ hc))

end Connected

end BlockFlow.Dominance
