import BlockFlow.Machine.Basic

/-!
# What the stack computes

The machine evaluates expressions on a stack whose array grows and is never cleared.  Here the stack
is shown to be a detail: on every stack that a run can reach, `Machine.evalExpr` gives the value (or
the error) of the plain recursion `Expr.evaluate`, left operand first (`Machine.evalExpr_spec`).

Whole blocks follow: what `Machine.step` does is `Machine.effect`, which has no stack at all
(`Machine.step_spec`), and so two machines whose blocks have the same effects run alike, whatever
their stacks hold (`Machine.Twin.run`).
-/

namespace BlockFlow

/-! ### Evaluation by recursion -/

namespace Expr

/-- The value of an expression: the left operand first, then the right one, then the operator. -/
def evaluate (read : String → Except EvalError Int64) : Expr → Except EvalError Int64
  | const value => .ok value
  | load name => read name
  | binary op left right =>
    match left.evaluate read with
    | .error error => .error error
    | .ok l =>
      match right.evaluate read with
      | .error error => .error error
      | .ok r =>
        match op.eval l r with
        | some value => .ok value
        | none => .error (Machine.operatorError op)
  | absent => .error .unknownExpression

end Expr

/-! ### The stack -/

namespace EvalStack

/-- The values on a stack, the lowest one first. -/
def contents (s : EvalStack) : List Int64 :=
  s.cells.toList.take s.depth

/-- All cells in use exist, and there is a cell at all, without which doubling makes no room. -/
structure Usable (s : EvalStack) : Prop where
  /-- The cells in use exist. -/
  depth_le : s.depth ≤ s.cells.size
  /-- There is a cell. -/
  size_pos : 0 < s.cells.size

variable {s : EvalStack}

theorem Usable.fresh : fresh.Usable :=
  ⟨by simp [EvalStack.fresh], by simp [EvalStack.fresh]⟩

theorem Usable.length_contents (h : s.Usable) : s.contents.length = s.depth := by
  have := h.depth_le
  simp only [contents, List.length_take, Array.length_toList]
  omega

/-- Growing makes room for one more value and keeps what is on the stack. -/
theorem Usable.grow (h : s.Usable) :
    s.depth < s.grow.cells.size ∧ s.grow.cells.toList.take s.depth = s.contents := by
  have hle := h.depth_le
  have hpos := h.size_pos
  unfold EvalStack.grow contents
  split
  · refine ⟨by simp only [Array.size_append, Array.size_replicate]; omega, ?_⟩
    rw [Array.toList_append, List.take_append_of_le_length (by simpa using hle)]
  · exact ⟨by omega, rfl⟩

theorem push?_spec (h : s.Usable) (value : Int64) :
    ∃ s', s.push? value = some s' ∧ s'.Usable ∧ s'.contents = s.contents ++ [value] := by
  obtain ⟨hlt, hkeep⟩ := h.grow
  refine ⟨⟨s.grow.cells.setIfInBounds s.depth value, s.depth + 1⟩, ?_, ⟨?_, ?_⟩, ?_⟩
  · simp [push?, write?, hlt]
  · simp only [Array.size_setIfInBounds]; omega
  · simp only [Array.size_setIfInBounds]; omega
  · simp only [contents, Array.toList_setIfInBounds]
    rw [List.take_succ_eq_append_getElem (by simpa using hlt), List.take_set_of_le (Nat.le_refl _),
      List.getElem_set_self, hkeep, contents]

/-- A value on the stack is in the cell of its place. -/
theorem getElem?_cells {below above : List Int64} {value : Int64}
    (hc : s.contents = below ++ value :: above) : s.cells[below.length]? = some value := by
  have h : s.contents[below.length]? = some value := by rw [hc]; simp
  rw [contents, List.getElem?_take] at h
  split at h
  · simpa using h
  · cases h

/-- The cells up to a place on the stack hold what is below that place. -/
theorem take_cells {below above : List Int64} (hc : s.contents = below ++ above) :
    s.cells.toList.take below.length = below := by
  have hle : below.length ≤ s.depth := by
    have := congrArg List.length hc
    simp only [contents, List.length_take, List.length_append] at this
    omega
  have h : s.contents.take below.length = below := by rw [hc]; simp
  rwa [contents, List.take_take, Nat.min_eq_left hle] at h

theorem pop?_spec (h : s.Usable) {below : List Int64} {value : Int64}
    (hc : s.contents = below ++ [value]) :
    ∃ s', s.pop? = some (value, s') ∧ s'.Usable ∧ s'.contents = below := by
  have hlen : s.depth = below.length + 1 := by rw [← h.length_contents, hc]; simp
  have hle := h.depth_le
  refine ⟨⟨s.cells, below.length⟩, ?_, ⟨by simp only; omega, h.size_pos⟩, take_cells (s := s) hc⟩
  simp [pop?, hlen, getElem?_cells hc]

theorem popUnder?_spec (h : s.Usable) {below : List Int64} {l r : Int64}
    (hc : s.contents = below ++ [l] ++ [r]) :
    ∃ s', s.popUnder? = some (l, r, s') ∧ s'.Usable ∧ s'.contents = below ++ [l] := by
  have hlen : s.depth = below.length + 2 := by rw [← h.length_contents, hc]; simp
  have hle := h.depth_le
  have hupper : s.cells[below.length + 1]? = some r := by
    have := getElem?_cells hc
    rwa [List.length_append, List.length_singleton] at this
  have hlower : s.cells[below.length]? = some l := by
    rw [List.append_assoc, List.singleton_append] at hc
    exact getElem?_cells hc
  refine ⟨⟨s.cells, below.length + 1⟩, ?_, ⟨by simp only; omega, h.size_pos⟩, ?_⟩
  · simp [popUnder?, hlen, hlower, hupper]
  · have := take_cells hc
    rwa [List.length_append, List.length_singleton] at this

theorem replaceTop?_spec (h : s.Usable) {below : List Int64} {top : Int64}
    (hc : s.contents = below ++ [top]) (value : Int64) :
    ∃ s', s.replaceTop? value = some s' ∧ s'.Usable ∧ s'.contents = below ++ [value] := by
  have hlen : s.depth = below.length + 1 := by rw [← h.length_contents, hc]; simp
  have hlt : below.length < s.cells.size := by have := h.depth_le; omega
  refine ⟨⟨s.cells.setIfInBounds below.length value, s.depth⟩, ?_, ⟨?_, ?_⟩, ?_⟩
  · simp [replaceTop?, write?, hlen, hlt]
  · simpa using h.depth_le
  · simpa using h.size_pos
  · simp only [contents, Array.toList_setIfInBounds, hlen]
    rw [List.take_succ_eq_append_getElem (by simpa using hlt), List.take_set_of_le (Nat.le_refl _),
      List.getElem_set_self, take_cells hc]

end EvalStack

/-! ### Expressions on the stack -/

namespace Machine

/-- The value of the variable that a name stands for. -/
def readSlot (slots : List (String × Nat)) (vars : Array Int64) (name : String) :
    Except EvalError Int64 :=
  match slots.lookup name with
  | none => .error (.unknownVariable name)
  | some i =>
    match vars[i]? with
    | some value => .ok value
    | none => .error .outOfBounds

variable {slots : List (String × Nat)} {vars : Array Int64} {s : EvalStack}

theorem pushValue_spec (h : s.Usable) (value : Int64) :
    ∃ s', pushValue s value = (s', none) ∧ s'.Usable ∧ s'.contents = s.contents ++ [value] := by
  obtain ⟨s', hpush, hs', hc⟩ := EvalStack.push?_spec h value
  exact ⟨s', by simp [pushValue, hpush], hs', hc⟩

/-- Applying an operator takes its operands off the stack and puts its value there, unless it has
none. -/
theorem applyOp_spec (op : Op) (h : s.Usable) {below : List Int64} {l r : Int64}
    (hc : s.contents = below ++ [l] ++ [r]) :
    ∃ s', s'.Usable ∧
      match op.eval l r with
      | some value => applyOp op s = (s', none) ∧ s'.contents = below ++ [value]
      | none => applyOp op s = (s', some (operatorError op)) := by
  obtain ⟨s₁, hpop, hs₁, hc₁⟩ := EvalStack.popUnder?_spec h hc
  cases hv : op.eval l r with
  | none => exact ⟨s₁, hs₁, by simp [applyOp, hpop, hv]⟩
  | some value =>
    obtain ⟨s₂, htop, hs₂, hc₂⟩ := EvalStack.replaceTop?_spec hs₁ hc₁ value
    exact ⟨s₂, hs₂, by simp [applyOp, hpop, hv, htop], hc₂⟩

/-- **Pushing an expression pushes its value.**  Nothing below it changes, and an expression that
has no value gives the error that the recursion meets first. -/
theorem pushExpr_spec (e : Expr) (h : s.Usable) :
    ∃ s', s'.Usable ∧
      match e.evaluate (readSlot slots vars) with
      | .ok value => pushExpr slots vars e s = (s', none) ∧ s'.contents = s.contents ++ [value]
      | .error error => pushExpr slots vars e s = (s', some error) := by
  induction e generalizing s with
  | const value =>
    obtain ⟨s', hpush, hs', hc⟩ := pushValue_spec h value
    exact ⟨s', hs', hpush, hc⟩
  | load name =>
    simp only [Expr.evaluate, readSlot, pushExpr]
    cases slots.lookup name with
    | none => exact ⟨s, h, rfl⟩
    | some i =>
      cases hv : vars[i]? with
      | none => exact ⟨s, h, by simp [hv]⟩
      | some value =>
        obtain ⟨s', hpush, hs', hc⟩ := pushValue_spec h value
        exact ⟨s', hs', by simpa [hv] using ⟨hpush, hc⟩⟩
  | binary op left right ihl ihr =>
    obtain ⟨s₁, hs₁, hl⟩ := ihl h
    simp only [Expr.evaluate, pushExpr]
    cases hvl : left.evaluate (readSlot slots vars) with
    | error error =>
      rw [hvl] at hl
      exact ⟨s₁, hs₁, by simp [hl]⟩
    | ok l =>
      rw [hvl] at hl
      obtain ⟨s₂, hs₂, hr⟩ := ihr hs₁
      cases hvr : right.evaluate (readSlot slots vars) with
      | error error =>
        rw [hvr] at hr
        exact ⟨s₂, hs₂, by simp [hl.1, hr]⟩
      | ok r =>
        rw [hvr] at hr
        have hc : s₂.contents = s.contents ++ [l] ++ [r] := by rw [hr.2, hl.2]
        obtain ⟨s₃, hs₃, hop⟩ := applyOp_spec op hs₂ hc
        refine ⟨s₃, hs₃, ?_⟩
        simp only [hl.1, hr.1]
        cases hv : op.eval l r with
        | none => rw [hv] at hop; exact hop
        | some value => rw [hv] at hop; exact hop
  | absent => exact ⟨s, h, rfl⟩

/-- **Evaluation by way of the stack is evaluation by recursion.** -/
theorem evalExpr_spec (e : Expr) (h : s.Usable) :
    ∃ s', s'.Usable ∧ evalExpr slots vars e s = (e.evaluate (readSlot slots vars), s') := by
  obtain ⟨s₁, hs₁, hpush⟩ := @pushExpr_spec slots vars s e h
  cases hv : e.evaluate (readSlot slots vars) with
  | error error =>
    rw [hv] at hpush
    exact ⟨s₁, hs₁, by simp [evalExpr, hpush]⟩
  | ok value =>
    rw [hv] at hpush
    obtain ⟨s₂, hpop, hs₂, -⟩ := EvalStack.pop?_spec hs₁ hpush.2
    exact ⟨s₂, hs₂, by simp [evalExpr, hpush.1, hpop]⟩

/-! ### Blocks -/

/-- What stores make of the variables, up to the first error. -/
def storeAll (slots : List (String × Nat)) :
    List Store → Array Int64 → Array Int64 × Option EvalError
  | [], vars => (vars, none)
  | store :: rest, vars =>
    match store.value.evaluate (readSlot slots vars) with
    | .error error => (vars, some error)
    | .ok value =>
      let i := (slots.lookup store.name).getD 0
      if i < vars.size then storeAll slots rest (vars.setIfInBounds i value)
      else (vars, some .outOfBounds)

/-- Where a terminator leads. -/
def transferOf (read : String → Except EvalError Int64) : Option Terminator → Transfer
  | none => .finish 0
  | some (.ret value) =>
    match value.evaluate read with
    | .ok value => .finish value
    | .error error => .fail error
  | some (.jump target) => .goto target
  | some (.branch cond onTrue onFalse) =>
    match cond.evaluate read with
    | .ok value => .goto (if 0 < value then onTrue else onFalse)
    | .error error => .fail error
  | some (.other name) => .fail (.unknownTerminator name)

/-- What executing a block does: where it leads, and the variables it leaves. -/
def effect (slots : List (String × Nat)) (b : Block) (vars : Array Int64) :
    Transfer × Array Int64 :=
  match storeAll slots b.stores vars with
  | (vars, some error) => (.fail error, vars)
  | (vars, none) => (transferOf (readSlot slots vars) b.term, vars)

theorem runStores_spec (stores : List Store) (vars : Array Int64) (h : s.Usable) :
    ∃ s', s'.Usable ∧ runStores slots stores vars s =
      ((storeAll slots stores vars).1, s', (storeAll slots stores vars).2) := by
  induction stores generalizing vars s with
  | nil => exact ⟨s, h, rfl⟩
  | cons store rest ih =>
    obtain ⟨s₁, hs₁, heval⟩ := @evalExpr_spec slots vars s store.value h
    simp only [runStores, storeAll, heval]
    cases store.value.evaluate (readSlot slots vars) with
    | error error => exact ⟨s₁, hs₁, rfl⟩
    | ok value =>
      dsimp only
      split
      · exact ih _ hs₁
      · exact ⟨s₁, hs₁, rfl⟩

theorem runTerminator_spec (vars : Array Int64) (t : Option Terminator) (h : s.Usable) :
    ∃ s', s'.Usable ∧ runTerminator slots vars s t = (transferOf (readSlot slots vars) t, s') := by
  rcases t with _ | (target | ⟨cond, onTrue, onFalse⟩ | value | name)
  · exact ⟨s, h, rfl⟩
  · exact ⟨s, h, rfl⟩
  · obtain ⟨s₁, hs₁, heval⟩ := @evalExpr_spec slots vars s cond h
    refine ⟨s₁, hs₁, ?_⟩
    simp only [runTerminator, transferOf, heval]
    cases cond.evaluate (readSlot slots vars) <;> rfl
  · obtain ⟨s₁, hs₁, heval⟩ := @evalExpr_spec slots vars s value h
    refine ⟨s₁, hs₁, ?_⟩
    simp only [runTerminator, transferOf, heval]
    cases value.evaluate (readSlot slots vars) <;> rfl
  · exact ⟨s, h, rfl⟩

/-- **A step has the effect of its block,** whatever the stack holds. -/
theorem step_spec (m : Machine) (b : Block) (h : m.stack.Usable) :
    ∃ s, s.Usable ∧ m.step b = ((effect m.slots b m.vars).1,
      { m with vars := (effect m.slots b m.vars).2, stack := s }) := by
  obtain ⟨s₁, hs₁, hstores⟩ := runStores_spec b.stores m.vars h
  unfold step effect
  rw [hstores]
  obtain ⟨vars, error⟩ := storeAll m.slots b.stores m.vars
  cases error with
  | some error => exact ⟨s₁, hs₁, rfl⟩
  | none =>
    obtain ⟨s₂, hs₂, hterm⟩ := @runTerminator_spec m.slots s₁ vars b.term hs₁
    exact ⟨s₂, hs₂, by simp only [hterm]⟩

end Machine

/-! ### Machines that run alike -/

/-- Two blocks cannot be told apart by executing them. -/
structure Block.Alike (b b' : Block) : Prop where
  /-- They have the same name. -/
  name_eq : b'.name = b.name
  /-- They have the same effect. -/
  effect_eq : ∀ slots vars, Machine.effect slots b' vars = Machine.effect slots b vars

/-- Two graphs have the same variables, and blocks in the same places that cannot be told apart. -/
structure Graph.Alike (g g' : Graph) : Prop where
  /-- They have the same variables. -/
  vars_eq : g'.vars = g.vars
  /-- What is a block of one is a block of the other. -/
  size_eq : g'.blocks.size = g.blocks.size
  /-- Their blocks are alike. -/
  alike : ∀ (i : Nat) (b : Block), g.blocks[i]? = some b →
    ∃ b', g'.blocks[i]? = some b' ∧ b.Alike b'

namespace Machine

/-- Two machines that differ in what cannot be observed: what their stacks hold, and how the blocks
of their graphs come by their effects. -/
structure Twin (m m' : Machine) : Prop where
  /-- The graphs are alike. -/
  graph : m.graph.Alike m'.graph
  /-- The limits are equal. -/
  limit_eq : m'.limit = m.limit
  /-- The inputs are equal. -/
  inputs_eq : m'.inputs = m.inputs
  /-- The slots are equal. -/
  slots_eq : m'.slots = m.slots
  /-- The variables are equal. -/
  vars_eq : m'.vars = m.vars
  /-- The counts are equal. -/
  steps_eq : m'.steps = m.steps
  /-- The first stack can be used. -/
  usable : m.stack.Usable
  /-- The second stack can be used. -/
  usable' : m'.stack.Usable

variable {m m' : Machine}

/-- One block takes twins to twins, and both to the same place. -/
theorem Twin.step (h : Twin m m') {b b' : Block} (hb : b.Alike b') :
    (m'.step b').1 = (m.step b).1 ∧ Twin (m.step b).2 (m'.step b').2 := by
  obtain ⟨s, hs, hstep⟩ := step_spec m b h.usable
  obtain ⟨s', hs', hstep'⟩ := step_spec m' b' h.usable'
  have heffect : effect m'.slots b' m'.vars = effect m.slots b m.vars := by
    rw [h.slots_eq, h.vars_eq, hb.effect_eq]
  rw [hstep, hstep', heffect]
  exact ⟨rfl, h.graph, h.limit_eq, h.inputs_eq, h.slots_eq, rfl, h.steps_eq, hs, hs'⟩

/-- A twin is the machine itself with another graph and another stack. -/
theorem Twin.eq_with (h : Twin m m') : ∃ g s, m' = { m with graph := g, stack := s } := by
  obtain ⟨-, hlimit, hinputs, hslots, hvars, hsteps, -, -⟩ := h
  exact ⟨m'.graph, m'.stack, by rw [← hlimit, ← hinputs, ← hslots, ← hvars, ← hsteps]⟩

/-- **Twins run alike:** from the same block on they end in the same way, ask equally often whether
they were cancelled, and stay twins. -/
theorem Twin.runFrom (h : Twin m m') (fuel : Nat) (polls : Polls) (block : Nat) :
    (m'.runFrom fuel polls block).1 = (m.runFrom fuel polls block).1 ∧
    (m'.runFrom fuel polls block).2.2 = (m.runFrom fuel polls block).2.2 ∧
    Twin (m.runFrom fuel polls block).2.1 (m'.runFrom fuel polls block).2.1 := by
  induction fuel generalizing m m' polls block with
  | zero => exact ⟨rfl, rfl, h⟩
  | succ fuel ih =>
    obtain ⟨g', s', rfl⟩ := h.eq_with
    unfold Machine.runFrom
    cases hb : m.graph.blocks[block]? with
    | none =>
      have hb' : g'.blocks[block]? = none := by
        rw [Array.getElem?_eq_none_iff, h.graph.size_eq]
        exact Array.getElem?_eq_none_iff.mp hb
      simp only [hb']
      exact ⟨trivial, trivial, h⟩
    | some b =>
      obtain ⟨b', hb', hlike⟩ := h.graph.alike block b hb
      simp only [hb', hlike.name_eq]
      split
      · exact ⟨rfl, rfl, h⟩
      · have hcount : Twin { m with steps := m.steps + 1 }
            { m with graph := g', stack := s', steps := m.steps + 1 } :=
          ⟨h.graph, rfl, rfl, rfl, rfl, rfl, h.usable, h.usable'⟩
        split
        · exact ⟨rfl, rfl, hcount⟩
        · -- The two steps lead to the same place, so one case split serves both.
          obtain ⟨hto, htwin⟩ := hcount.step hlike
          generalize Machine.step { m with steps := m.steps + 1 } b = after at hto htwin ⊢
          generalize Machine.step { m with graph := g', stack := s', steps := m.steps + 1 } b' =
            after' at hto htwin ⊢
          obtain ⟨transfer, m₁⟩ := after
          obtain ⟨transfer', m₁'⟩ := after'
          simp only at hto htwin
          subst hto
          cases transfer' with
          | goto target => exact ih htwin (polls.map (· - 1)) target
          | finish value => exact ⟨rfl, rfl, htwin⟩
          | fail error => cases error <;> exact ⟨rfl, rfl, htwin⟩

/-- Clearing makes twins of machines that were twins. -/
theorem Twin.reset (h : Twin m m') : Twin m.reset m'.reset where
  graph := h.graph
  limit_eq := h.limit_eq
  inputs_eq := h.inputs_eq
  slots_eq := h.slots_eq
  vars_eq := by simp only [Machine.reset, h.vars_eq]
  steps_eq := rfl
  usable := ⟨Nat.zero_le _, h.usable.size_pos⟩
  usable' := ⟨Nat.zero_le _, h.usable'.size_pos⟩

/-- **Twins run alike from their entries,** and stay twins. -/
theorem Twin.run (h : Twin m m') (fuel : Nat) (polls : Polls) :
    (m'.run fuel polls).1 = (m.run fuel polls).1 ∧
    (m'.run fuel polls).2.2 = (m.run fuel polls).2.2 ∧
    Twin (m.run fuel polls).2.1 (m'.run fuel polls).2.1 := by
  have hr := h.reset
  unfold Machine.run
  dsimp only
  generalize m.reset = r at hr ⊢
  generalize m'.reset = r' at hr ⊢
  obtain ⟨g', s', rfl⟩ := hr.eq_with
  obtain ⟨vars, unknown⟩ := bindInputs r.slots r.inputs.entries r.vars
  have hbound : Twin { r with vars := vars }
      { r with graph := g', stack := s', vars := vars } :=
    ⟨hr.graph, rfl, rfl, rfl, rfl, rfl, hr.usable, hr.usable'⟩
  cases unknown with
  | some name => exact ⟨rfl, rfl, hbound⟩
  | none => exact hbound.runFrom fuel polls 0

/-- What can be seen of one run. -/
structure Report where
  /-- How it ended. -/
  outcome : Outcome
  /-- How many blocks it counted. -/
  steps : Nat
  /-- The variables it left, by name. -/
  get? : String → Option Int64
  /-- How often it could still have asked before it was cancelled. -/
  polls : Polls

/-- The reports of runs of one machine, one after the other.  Each run has its own bound on blocks
and its own moment of cancellation. -/
def reports (m : Machine) : List (Nat × Polls) → List Report
  | [] => []
  | (fuel, polls) :: rest =>
    let (outcome, m, polls) := m.run fuel polls
    ⟨outcome, m.steps, m.get?, polls⟩ :: m.reports rest

/-- **Twins give the same reports.** -/
theorem Twin.reports (h : Twin m m') (runs : List (Nat × Polls)) :
    m'.reports runs = m.reports runs := by
  induction runs generalizing m m' with
  | nil => rfl
  | cons run rest ih =>
    obtain ⟨fuel, polls⟩ := run
    obtain ⟨houtcome, hpolls, htwin⟩ := h.run fuel polls
    have hget : (m'.run fuel polls).2.1.get? = (m.run fuel polls).2.1.get? := by
      funext name
      simp only [get?, slot?, htwin.slots_eq, htwin.vars_eq]
    simp only [Machine.reports, houtcome, hpolls, htwin.steps_eq, hget, ih htwin]

/-- Machines made for graphs that are alike are twins. -/
theorem Twin.new {g g' : Graph} (h : g.Alike g') (limit : Int) (inputs : Inputs) :
    Twin (new g limit inputs) (new g' limit inputs) where
  graph := h
  limit_eq := rfl
  inputs_eq := rfl
  slots_eq := by simp only [Machine.new, h.vars_eq]
  vars_eq := by simp only [Machine.new, h.vars_eq]
  steps_eq := rfl
  usable := .fresh
  usable' := .fresh

end Machine

end BlockFlow
