import BlockFlow.Graph.Expr
import Mathlib.Data.Int.ModEq
import Mathlib.Data.Rat.Floor
import Mathlib.Tactic.IntervalCases

/-!
# Operators compute with whole numbers

An operator is applied to words.  What it would give for the whole numbers that the words stand for
is said by `Op.exactValue?`, with quotients as rational numbers rounded toward zero.  The word that
the operator gives stands for that number, reduced modulo `2 ^ 64` (`Op.exactValue?_of_eval`).

Two kinds of results need no reduction.  A comparison gives one or zero
(`Op.exactValue?_of_isRelational`).  A quotient is no further from zero than what is divided, so a
word can stand for it, with one exception: the lowest number has no counterpart of the other sign
(`toInt_div_eq_towardZero`).
-/

namespace BlockFlow

/-! ### Numbers that words stand for -/

/-- A word can stand for the number. -/
def InRange (n : ℤ) : Prop :=
  -2 ^ 63 ≤ n ∧ n < 2 ^ 63

/-- The second number is the first one, reduced modulo `2 ^ 64` to one that a word can stand for. -/
structure ReducesTo (n v : ℤ) : Prop where
  inRange : InRange v
  modEq : v ≡ n [ZMOD 2 ^ 64]

theorem inRange_toInt (w : Int64) : InRange w.toInt :=
  ⟨w.le_toInt, w.toInt_lt⟩

theorem reducesTo_toInt {w : Int64} {n : ℤ} (h : w.toInt = n.bmod (2 ^ 64)) :
    ReducesTo n w.toInt where
  inRange := inRange_toInt w
  modEq := by
    rw [h]
    exact Int.bmod_emod

/-! ### Quotients -/

/-- A rational number rounded toward zero. -/
def towardZero (x : ℚ) : ℤ :=
  if 0 ≤ x then ⌊x⌋ else ⌈x⌉

theorem towardZero_div_natCast (a : ℤ) (d : ℕ) : towardZero (a / d) = a.tdiv d := by
  unfold towardZero
  by_cases ha : 0 ≤ a
  · have hx : (0 : ℚ) ≤ a / d := div_nonneg (Int.cast_nonneg ha) (Nat.cast_nonneg d)
    rw [if_pos hx, Rat.floor_intCast_div_natCast, Int.tdiv_eq_ediv_of_nonneg ha]
  · have hnonneg : 0 ≤ -a := by omega
    have hceil : ⌈(a : ℚ) / d⌉ = a.tdiv d := by
      rw [Rat.ceil_intCast_div_natCast, ← Int.tdiv_eq_ediv_of_nonneg hnonneg, Int.neg_tdiv, neg_neg]
    by_cases hd : d = 0
    · simp [hd]
    · have ha' : (a : ℚ) < 0 := by exact_mod_cast Int.not_le.mp ha
      have hd' : (0 : ℚ) < d := by exact_mod_cast Nat.pos_of_ne_zero hd
      rw [if_neg (not_le.mpr (div_neg_of_neg_of_pos ha' hd')), hceil]

/-- Dividing whole numbers by `Int.tdiv` rounds their quotient toward zero. -/
theorem towardZero_div (a b : ℤ) : towardZero (a / b) = a.tdiv b := by
  obtain ⟨d, rfl | rfl⟩ := b.eq_nat_or_neg
  · exact_mod_cast towardZero_div_natCast a d
  · have hneg := towardZero_div_natCast (-a) d
    rw [Int.tdiv_neg, ← Int.neg_tdiv, ← hneg]
    congr 1
    push_cast
    rw [div_neg, neg_div]

/-- The lowest number divided by minus one is the only quotient that no word can stand for. -/
theorem toInt_div_eq_towardZero {l r : Int64} (h : ¬ (l.toInt = -2 ^ 63 ∧ r.toInt = -1)) :
    (l / r).toInt = towardZero (l.toInt / r.toInt) := by
  rw [towardZero_div]
  by_cases hl : l = Int64.minValue
  · have hr : r ≠ -1 := by
      rintro rfl
      exact h ⟨hl ▸ Int64.toInt_minValue, by decide⟩
    exact Int64.toInt_div_of_ne_right l r hr
  · exact Int64.toInt_div_of_ne_left l r hl

theorem toInt_div_lowest {l r : Int64} (hl : l.toInt = -2 ^ 63) (hr : r.toInt = -1) :
    (l / r).toInt = -2 ^ 63 := by
  rw [Int64.toInt_div, hl, hr]
  decide

/-! ### Operators -/

namespace Op

/-- What an operator gives for whole numbers. -/
def exactValue? (op : Op) (l r : ℤ) : Option ℤ :=
  match op with
  | add => some (l + r)
  | sub => some (l - r)
  | mul => some (l * r)
  | div => if r = 0 then none else some (towardZero (l / r))
  | less => some (if l < r then 1 else 0)
  | lessEq => some (if l ≤ r then 1 else 0)
  | greater => some (if l > r then 1 else 0)
  | greaterEq => some (if l ≥ r then 1 else 0)
  | equal => some (if l = r then 1 else 0)
  | other _ => none

variable {op : Op} {l r v : Int64}

theorem toInt_truth {p : Prop} [Decidable p] {q : Bool} (h : q = true ↔ p) :
    (truth q).toInt = if p then 1 else 0 := by
  by_cases hp : p
  · rw [if_pos hp, h.mpr hp]
    rfl
  · rw [if_neg hp, Bool.eq_false_iff.mpr fun hq => hp (h.mp hq)]
    rfl

/-- A comparison of words compares the numbers they stand for. -/
theorem exactValue?_of_isRelational (hop : op.isRelational = true) (h : op.eval l r = some v) :
    op.exactValue? l.toInt r.toInt = some v.toInt := by
  cases op with
  | add | sub | mul | div => cases hop
  | other => cases h
  | less =>
    cases h
    rw [toInt_truth (decide_eq_true_iff.trans Int64.lt_iff_toInt_lt)]
    rfl
  | lessEq =>
    cases h
    rw [toInt_truth (decide_eq_true_iff.trans Int64.le_iff_toInt_le)]
    rfl
  | greater =>
    cases h
    rw [toInt_truth (decide_eq_true_iff.trans Int64.lt_iff_toInt_lt)]
    rfl
  | greaterEq =>
    cases h
    rw [toInt_truth (decide_eq_true_iff.trans Int64.le_iff_toInt_le)]
    rfl
  | equal =>
    cases h
    rw [toInt_truth (beq_iff_eq.trans Int64.toInt_inj.symm)]
    rfl

theorem toInt_eq_zero_iff : r.toInt = 0 ↔ r = 0 :=
  Int64.toInt_inj (y := 0)

theorem eval_div_eq_some (h : div.eval l r = some v) : r.toInt ≠ 0 ∧ v = l / r := by
  rw [eval] at h
  split at h
  · cases h
  · next hr => exact ⟨fun h0 => hr (toInt_eq_zero_iff.mp h0), (Option.some.inj h).symm⟩

/-- **The word that an operator gives is the exact result, reduced.** -/
theorem exactValue?_of_eval (h : op.eval l r = some v) :
    ∃ n, op.exactValue? l.toInt r.toInt = some n ∧ ReducesTo n v.toInt := by
  by_cases hop : op.isRelational = true
  · exact ⟨v.toInt, exactValue?_of_isRelational hop h, inRange_toInt v, rfl⟩
  · cases op with
    | add =>
      cases h
      exact ⟨_, rfl, reducesTo_toInt (Int64.toInt_add l r)⟩
    | sub =>
      cases h
      exact ⟨_, rfl, reducesTo_toInt (Int64.toInt_sub l r)⟩
    | mul =>
      cases h
      exact ⟨_, rfl, reducesTo_toInt (Int64.toInt_mul l r)⟩
    | div =>
      obtain ⟨hr, rfl⟩ := eval_div_eq_some h
      refine ⟨_, if_neg hr, reducesTo_toInt ?_⟩
      rw [Int64.toInt_div, towardZero_div]
    | less | lessEq | greater | greaterEq | equal | other => exact absurd rfl hop

theorem eval_eq_none_iff :
    op.eval l r = none ↔ op = div ∧ r.toInt = 0 ∨ ∃ code, op = other code := by
  cases op with
  | div => simp [eval, toInt_eq_zero_iff]
  | _ => simp [eval]

/-- The numbers of the operators of the language end with the one of the equality. -/
theorem exists_ofCode_eq_other_iff {code : Nat} : (∃ c, ofCode code = other c) ↔ 8 < code := by
  by_cases hcode : 8 < code
  · obtain ⟨c, rfl⟩ : ∃ c, code = c + 9 := ⟨code - 9, by omega⟩
    exact iff_of_true ⟨_, rfl⟩ hcode
  · interval_cases code <;> simp [ofCode]

/-- **Operators are exact arithmetic of whole numbers, reduced to words.**  There is no value just
for a division by zero and for a number above the one of the equality.  Otherwise the value stands
for the exact result reduced modulo `2 ^ 64`.  Comparisons are exact, and so are quotients: only the
lowest number divided by minus one gives the lowest number again. -/
theorem eval_ofCode (code : Nat) (l r : Int64) :
    ((ofCode code).eval l r = none ↔ ofCode code = div ∧ r.toInt = 0 ∨ 8 < code) ∧
    ∀ v, (ofCode code).eval l r = some v →
      ∃ n, (ofCode code).exactValue? l.toInt r.toInt = some n ∧ ReducesTo n v.toInt ∧
        (ofCode code = div →
          v.toInt = if l.toInt = -2 ^ 63 ∧ r.toInt = -1 then -2 ^ 63 else n) ∧
        ((ofCode code).isRelational = true → v.toInt = n) := by
  refine ⟨by rw [eval_eq_none_iff, exists_ofCode_eq_other_iff], fun v hv => ?_⟩
  obtain ⟨n, hn, hreduces⟩ := exactValue?_of_eval hv
  refine ⟨n, hn, hreduces, fun hdiv => ?_, fun hop => ?_⟩
  · rw [hdiv] at hv hn
    obtain ⟨hr, rfl⟩ := eval_div_eq_some hv
    obtain rfl : towardZero (l.toInt / r.toInt) = n := Option.some.inj ((if_neg hr).symm.trans hn)
    split
    · next hlowest => exact toInt_div_lowest hlowest.1 hlowest.2
    · next hlowest => exact toInt_div_eq_towardZero hlowest
  · exact Option.some.inj ((exactValue?_of_isRelational hop hv).symm.trans hn)

/-- The lowest number divided by minus one gives itself; the product of three and the lowest number
is reduced; seven divided by minus two is rounded toward zero; and there is no operator nine. -/
theorem eval_ofCode_lowest :
    ((ofCode 3).eval Int64.minValue (-1) = some Int64.minValue ∧
      ReducesTo (2 ^ 63) Int64.minValue.toInt) ∧
    ((ofCode 2).eval 3 Int64.minValue = some Int64.minValue ∧
      ReducesTo (3 * -2 ^ 63) Int64.minValue.toInt) ∧
    ((ofCode 3).eval 7 (-2) = some (-3) ∧ (-3 : Int64).toInt = towardZero (7 / -2)) ∧
    (ofCode 9).eval 1 1 = none := by
  have hlowest : (ofCode 3).eval Int64.minValue (-1) = some Int64.minValue := by decide
  have hproduct : (ofCode 2).eval 3 Int64.minValue = some Int64.minValue := by decide
  have hquotient : (ofCode 3).eval 7 (-2) = some (-3) := by decide
  obtain ⟨n, hn, hreduces, -⟩ := (eval_ofCode 3 Int64.minValue (-1)).2 _ hlowest
  obtain ⟨m, hm, hreduces', -⟩ := (eval_ofCode 2 3 Int64.minValue).2 _ hproduct
  obtain ⟨q, hq, -, hexact, -⟩ := (eval_ofCode 3 7 (-2)).2 _ hquotient
  have hone : (-1 : Int64).toInt = -1 := by decide
  have htwo : (-2 : Int64).toInt = -2 := by decide
  refine ⟨⟨hlowest, ?_⟩, ⟨hproduct, ?_⟩, ⟨hquotient, ?_⟩,
    (eval_ofCode 9 1 1).1.mpr (.inr (by decide))⟩
  · cases hn
    rw [hone, towardZero_div] at hreduces
    exact hreduces
  · obtain rfl : (3 : Int64).toInt * Int64.minValue.toInt = m := Option.some.inj hm
    exact hreduces'
  · cases hq
    rw [hexact rfl, htwo, if_neg (by decide)]
    norm_cast

end Op

end BlockFlow
