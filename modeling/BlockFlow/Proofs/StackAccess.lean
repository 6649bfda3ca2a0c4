import BlockFlow.Proofs.Evaluation

/-!
# The cells of the stack

`Machine.pushExpr_spec` says what evaluating an expression does to the values on the stack.  Here
the same is said of the array that holds them: the cell behind those in use gets the value of the
expression, and the cells below it keep what they hold, also when the array has to grow on the way
(`Machine.pushExpr_computes`).

An access outside the array shows as an error of the machine, but a variable without a slot shows in
the same way.  So `Machine.accesses` lists the accesses to the array that evaluating an expression
makes, in order, each with the size that the array has at that moment.  A value is pushed, and an
operator applied, without an error of this kind exactly if its accesses are in range
(`Machine.pushValue_ne_outOfBounds_iff`, `Machine.applyOp_ne_outOfBounds_iff`).
-/

namespace BlockFlow

namespace EvalStack

variable {s s' : EvalStack}

/-! ### Cells in use -/

/-- The values on a stack are what its cells in use hold. -/
theorem getElem?_contents {i : Nat} (hi : i < s.depth) : s.contents[i]? = s.cells[i]? := by
  rw [contents, List.getElem?_take, if_pos hi]
  simp

/-- One more value on a stack, seen from its cells. -/
theorem cells_of_contents_concat (h : s.Usable) (h' : s'.Usable) {value : Int64}
    (hc : s'.contents = s.contents ++ [value]) :
    s'.depth = s.depth + 1 ∧ s'.cells[s.depth]? = some value ∧
      ∀ i < s.depth, s'.cells[i]? = s.cells[i]? := by
  have hdepth : s'.depth = s.depth + 1 := by
    rw [← h'.length_contents, hc, List.length_append, h.length_contents]
    rfl
  refine ⟨hdepth, ?_, fun i hi => ?_⟩
  · rw [← h.length_contents]
    exact getElem?_cells hc
  · rw [← getElem?_contents hi, ← getElem?_contents (show i < s'.depth by omega), hc,
      List.getElem?_append_left (by rw [h.length_contents]; exact hi)]

/-! ### Accesses -/

/-- An access to a cell of an array. -/
structure Access where
  /-- The number of the cell, which may be none of the array. -/
  cell : Int
  /-- How many cells there are. -/
  size : Nat
deriving DecidableEq, Repr

/-- The array has the cell. -/
def Access.InRange (a : Access) : Prop :=
  0 ≤ a.cell ∧ a.cell < a.size

/-- Pushing a value writes the cell behind those in use, when there is room for it. -/
def pushAccesses (s : EvalStack) : List Access :=
  [⟨s.depth, s.grow.cells.size⟩]

/-- Applying an operator reads the two cells on top.  If it has a value, the lower one, which is
then on top, is written. -/
def opAccesses (op : Op) (s : EvalStack) : List Access :=
  ⟨(s.depth : Int) - 2, s.cells.size⟩ :: ⟨(s.depth : Int) - 1, s.cells.size⟩ ::
    match s.popUnder? with
    | none => []
    | some (l, r, s') =>
      if (op.eval l r).isSome then [⟨(s'.depth : Int) - 1, s'.cells.size⟩] else []

/-- Two values can be read on top of a stack if two cells are in use and the array has them. -/
theorem exists_popUnder? (h₂ : 2 ≤ s.depth) (hle : s.depth ≤ s.cells.size) :
    ∃ l r, s.popUnder? = some (l, r, ⟨s.cells, s.depth - 1⟩) := by
  obtain ⟨cells, depth⟩ := s
  obtain ⟨n, rfl⟩ : ∃ n, depth = n + 2 := ⟨depth - 2, by simp only at h₂; omega⟩
  have hlower : n < cells.size := by simp only at hle; omega
  have hupper : n + 1 < cells.size := by simp only at hle; omega
  exact ⟨cells[n], cells[n + 1], by simp [popUnder?, hlower, hupper]⟩

/-- Otherwise they cannot. -/
theorem popUnder?_eq_none (h : s.depth < 2 ∨ s.cells.size < s.depth) : s.popUnder? = none := by
  obtain ⟨cells, depth⟩ := s
  rcases depth with _ | _ | n
  · rfl
  · rfl
  · have hupper : cells[n + 1]? = none := by
      simp only at h
      exact Array.getElem?_eq_none (by omega)
    simp [popUnder?, hupper]

/-- The value on top can be overwritten if a cell is in use and the array has it. -/
theorem exists_replaceTop? (h₁ : 1 ≤ s.depth) (hle : s.depth ≤ s.cells.size) (value : Int64) :
    ∃ s', s.replaceTop? value = some s' := by
  obtain ⟨cells, depth⟩ := s
  obtain ⟨n, rfl⟩ : ∃ n, depth = n + 1 := ⟨depth - 1, by simp only at h₁; omega⟩
  have htop : n < cells.size := by simp only at hle; omega
  exact ⟨⟨cells.setIfInBounds n value, n + 1⟩, by simp [replaceTop?, write?, htop]⟩

end EvalStack

/-! ### Accesses of expressions -/

namespace Machine

open EvalStack (Access)

variable {slots : List (String × Nat)} {vars : Array Int64} {s : EvalStack}

/-- A value finds no place on a stack exactly if the access is out of range. -/
theorem pushValue_ne_outOfBounds_iff (s : EvalStack) (value : Int64) :
    (pushValue s value).2 ≠ some .outOfBounds ↔ ∀ a ∈ s.pushAccesses, a.InRange := by
  have haccess : (∀ a ∈ s.pushAccesses, a.InRange) ↔ s.depth < s.grow.cells.size := by
    simp [EvalStack.pushAccesses, Access.InRange]
  rw [haccess]
  by_cases hlt : s.depth < s.grow.cells.size
  · simp [pushValue, EvalStack.push?, EvalStack.write?, hlt]
  · simp [pushValue, EvalStack.push?, EvalStack.write?, hlt]

theorem operatorError_ne_outOfBounds (op : Op) : operatorError op ≠ .outOfBounds := by
  unfold operatorError
  split
  · rintro ⟨⟩
  · rintro ⟨⟩

/-- The operands of an operator are not found on a stack, or its value has no place there, exactly
if an access is out of range. -/
theorem applyOp_ne_outOfBounds_iff (op : Op) (s : EvalStack) :
    (applyOp op s).2 ≠ some .outOfBounds ↔ ∀ a ∈ s.opAccesses op, a.InRange := by
  by_cases hrange : 2 ≤ s.depth ∧ s.depth ≤ s.cells.size
  · obtain ⟨l, r, hpop⟩ := EvalStack.exists_popUnder? hrange.1 hrange.2
    -- Nothing is out of range: the operands are there, and the value goes where one of them was.
    obtain ⟨h₂, hle⟩ := hrange
    have hin : ∀ a ∈ s.opAccesses op, a.InRange := by
      intro a ha
      rw [EvalStack.opAccesses, hpop, List.mem_cons, List.mem_cons] at ha
      rcases ha with rfl | rfl | ha
      · exact ⟨by simp only; omega, by simp only; omega⟩
      · exact ⟨by simp only; omega, by simp only; omega⟩
      · simp only at ha
        split at ha
        · rw [List.mem_singleton.mp ha]
          exact ⟨by simp only; omega, by simp only; omega⟩
        · cases ha
    refine iff_of_true ?_ hin
    cases hv : op.eval l r with
    | none => simpa [applyOp, hpop, hv] using operatorError_ne_outOfBounds op
    | some value =>
      obtain ⟨s', htop⟩ := EvalStack.exists_replaceTop? (s := ⟨s.cells, s.depth - 1⟩)
        (by simp only; omega) (by simp only; omega) value
      simp [applyOp, hpop, hv, htop]
  · have hpop : s.popUnder? = none := EvalStack.popUnder?_eq_none (by omega)
    refine iff_of_false (by simp [applyOp, hpop]) fun hin => hrange ?_
    have hlower := (hin ⟨(s.depth : Int) - 2, s.cells.size⟩ (by simp [EvalStack.opAccesses])).1
    have hupper := (hin ⟨(s.depth : Int) - 1, s.cells.size⟩ (by simp [EvalStack.opAccesses])).2
    simp only at hlower hupper
    omega

/-- The accesses to the stack that evaluating an expression makes, in order.  An operand that fails
is the last thing evaluated. -/
def accesses (slots : List (String × Nat)) (vars : Array Int64) :
    Expr → EvalStack → List Access
  | .const _, s => s.pushAccesses
  | .load name, s =>
    match readSlot slots vars name with
    | .ok _ => s.pushAccesses
    | .error _ => []
  | .binary op left right, s =>
    accesses slots vars left s ++
      match pushExpr slots vars left s with
      | (_, some _) => []
      | (s, none) =>
        accesses slots vars right s ++
          match pushExpr slots vars right s with
          | (_, some _) => []
          | (s, none) => s.opAccesses op
  | .absent, _ => []

/-- A stack that can be used has room for one more value. -/
theorem inRange_pushAccesses (h : s.Usable) : ∀ a ∈ s.pushAccesses, a.InRange := by
  obtain ⟨s', hpush, -, -⟩ := pushValue_spec h 0
  refine (pushValue_ne_outOfBounds_iff s 0).mp ?_
  rw [hpush]
  rintro ⟨⟩

/-- A stack with the operands of an operator on top has room for its value. -/
theorem inRange_opAccesses (op : Op) (h : s.Usable) {below : List Int64} {l r : Int64}
    (hc : s.contents = below ++ [l] ++ [r]) : ∀ a ∈ s.opAccesses op, a.InRange := by
  obtain ⟨s', -, hop⟩ := applyOp_spec op h hc
  refine (applyOp_ne_outOfBounds_iff op s).mp ?_
  cases hv : op.eval l r with
  | none =>
    rw [hv] at hop
    rw [hop]
    exact fun heq => operatorError_ne_outOfBounds op (Option.some.inj heq)
  | some value =>
    rw [hv] at hop
    rw [hop.1]
    rintro ⟨⟩

/-- What evaluating an expression leaves when it comes to its end. -/
theorem pushExpr_eq_none {e : Expr} {s' : EvalStack} (h : s.Usable)
    (hpush : pushExpr slots vars e s = (s', none)) :
    s'.Usable ∧ ∃ value, s'.contents = s.contents ++ [value] := by
  obtain ⟨s₁, hs₁, hspec⟩ := @pushExpr_spec slots vars s e h
  cases hv : e.evaluate (readSlot slots vars) with
  | error error =>
    rw [hv, hpush] at hspec
    cases hspec
  | ok value =>
    rw [hv, hpush] at hspec
    obtain ⟨heq, hc⟩ := hspec
    cases heq
    exact ⟨hs₁, value, hc⟩

/-- **No access to the stack is out of range.** -/
theorem inRange_accesses (e : Expr) (h : s.Usable) :
    ∀ a ∈ accesses slots vars e s, a.InRange := by
  induction e generalizing s with
  | const value => exact inRange_pushAccesses h
  | load name =>
    rw [accesses]
    split
    · exact inRange_pushAccesses h
    · exact fun a ha => absurd ha List.not_mem_nil
  | binary op left right ihl ihr =>
    rw [accesses]
    refine List.forall_mem_append.mpr ⟨ihl h, ?_⟩
    split
    · exact fun a ha => absurd ha List.not_mem_nil
    · -- The right operand is evaluated on a stack with the left one on top.
      rename_i s₁ hleft
      obtain ⟨hs₁, l, hc₁⟩ := pushExpr_eq_none h hleft
      refine List.forall_mem_append.mpr ⟨ihr hs₁, ?_⟩
      split
      · exact fun a ha => absurd ha List.not_mem_nil
      · rename_i s₂ hright
        obtain ⟨hs₂, r, hc₂⟩ := pushExpr_eq_none hs₁ hright
        rw [hc₁] at hc₂
        exact inRange_opAccesses op hs₂ hc₂
  | absent => exact fun a ha => absurd ha List.not_mem_nil

/-- **The stack computes the recursive evaluation.**  Take any expression and a stack whose cells in
use exist and that has a cell at all.  Pushing the expression succeeds if and only if evaluating it
by recursion does, the left operand first, then the right one, then the operator.  Then one more
cell is in use, it holds the value, and the cells in use before hold what they held.  If evaluation
by recursion fails, pushing fails with the error that it meets first.  And no access to the array is
out of range, before or after it grows. -/
theorem pushExpr_computes (e : Expr) (h : s.Usable) :
    ((pushExpr slots vars e s).2 = none ↔
      ∃ value, e.evaluate (readSlot slots vars) = .ok value) ∧
    (∀ value, e.evaluate (readSlot slots vars) = .ok value →
      ∃ s', pushExpr slots vars e s = (s', none) ∧ s'.depth = s.depth + 1 ∧
        s'.cells[s.depth]? = some value ∧ ∀ i < s.depth, s'.cells[i]? = s.cells[i]?) ∧
    (∀ error, e.evaluate (readSlot slots vars) = .error error ↔
      (pushExpr slots vars e s).2 = some error) ∧
    ∀ a ∈ accesses slots vars e s, a.InRange := by
  obtain ⟨s', hs', hspec⟩ := @pushExpr_spec slots vars s e h
  cases hv : e.evaluate (readSlot slots vars) with
  | ok value =>
    rw [hv] at hspec
    obtain ⟨hpush, hc⟩ := hspec
    rw [hpush]
    refine ⟨iff_of_true rfl ⟨value, rfl⟩, ?_, ?_, inRange_accesses e h⟩
    · rintro _ ⟨⟩
      exact ⟨s', rfl, EvalStack.cells_of_contents_concat h hs' hc⟩
    · intro error
      simp
  | error error =>
    rw [hv] at hspec
    rw [hspec]
    refine ⟨by simp, ?_, ?_, inRange_accesses e h⟩
    · rintro value ⟨⟩
    · intro error'
      simp

/-- An expression whose operators all wait for their right operands: `2 - (1 - (0 - x))` and so
on. -/
def waiting : Nat → Expr
  | 0 => .load "x"
  | n + 1 => .binary .sub (.const (.ofNat n)) (waiting n)

/-- Forty-one values on a stack that began with one cell, and an error of a left operand in front of
a missing right one. -/
theorem pushExpr_waiting :
    (⟨#[7], 1⟩ : EvalStack).Usable ∧
    (∃ s', pushExpr [("x", 0)] #[5] (waiting 40) ⟨#[7], 1⟩ = (s', none) ∧ s'.depth = 2 ∧
      s'.cells[1]? = some 25 ∧ s'.cells[0]? = some 7) ∧
    (∀ a ∈ accesses [("x", 0)] #[5] (waiting 40) ⟨#[7], 1⟩, a.InRange) ∧
    (pushExpr [("x", 0)] #[5] (.binary .div (.load "y") .absent) ⟨#[7], 1⟩).2 =
      some (.unknownVariable "y") := by
  have hs : (⟨#[7], 1⟩ : EvalStack).Usable := ⟨by decide, by decide⟩
  have hvalue : (waiting 40).evaluate (readSlot [("x", 0)] #[5]) = .ok 25 := by rfl
  obtain ⟨-, hok, -, hrange⟩ := @pushExpr_computes [("x", 0)] #[5] _ (waiting 40) hs
  obtain ⟨-, -, herror, -⟩ :=
    @pushExpr_computes [("x", 0)] #[5] _ (.binary .div (.load "y") .absent) hs
  obtain ⟨s', hpush, hdepth, htop, hbelow⟩ := hok 25 hvalue
  exact ⟨hs, ⟨s', hpush, hdepth, htop, hbelow 0 Nat.one_pos⟩, hrange, (herror _).mp rfl⟩

end Machine

end BlockFlow
