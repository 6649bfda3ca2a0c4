import BlockFlow.Proofs.Cutoffs

/-!
# What a run counts

A run counts a block before it compares the count with the limit, and so before it executes the
block.  Hence the count of a run is the number of blocks that it executed, or began to execute, with
one exception: a run that is stopped by its limit has counted one block more, the one that it names
in its error and did not execute (`Machine.steps_run`).  The blocks executed never exceed the limit;
the count does, by one, exactly in that case.

To speak of the blocks that a run executes, `Machine.traced` carries out a run and notes them.  What
one block adds to note and count (`Machine.Counted.cons`) gives the count of a whole run by
induction on its length.
-/

namespace BlockFlow

/-- The run was stopped because a block would have exceeded the limit. -/
def Outcome.exceedsLimit : Outcome → Bool
  | failed (.stepLimit _ _) => true
  | _ => false

namespace Machine

/-! ### Runs that note what they execute -/

/-- Executes blocks from the given one on, at most `fuel` of them, and notes the number of each
block when its execution begins. -/
def tracedFrom : (fuel : Nat) → Machine → Polls → (block : Nat) →
    List Nat × Outcome × Machine × Polls
  | 0, m, polls, _ => ([], .unfinished, m, polls)
  | fuel + 1, m, polls, block =>
    match m.graph.blocks[block]? with
    | none => ([], .crashed, m, polls)
    | some b =>
      if polls = some 0 then ([], .failed .cancelled, m, polls)
      else
        let polls := polls.map (· - 1)
        let m := { m with steps := m.steps + 1 }
        if 0 < m.limit ∧ m.limit < m.steps then
          ([], .failed (.stepLimit b.name m.limit), m, polls)
        else
          match m.step b with
          | (.goto target, m) =>
            let (rest, ending) := tracedFrom fuel m polls target
            (block :: rest, ending)
          | (.finish value, m) => ([block], .finished value, m, polls)
          | (.fail .outOfBounds, m) => ([block], .crashed, m, polls)
          | (.fail error, m) => ([block], .failed (.inBlock b.name error), m, polls)

/-- Runs the graph from its entry, executing at most `fuel` blocks, and notes their numbers. -/
def traced (fuel : Nat) (m : Machine) (polls : Polls) : List Nat × Outcome × Machine × Polls :=
  let m := m.reset
  match bindInputs m.slots m.inputs.entries m.vars with
  | (vars, some name) => ([], .failed (.unknownInput name), { m with vars }, polls)
  | (vars, none) => tracedFrom fuel { m with vars } polls 0

variable {m m' m₁ : Machine} {blocks rest : List Nat} {outcome : Outcome} {block : Nat}

/-- Noting blocks makes no difference to a run. -/
theorem tracedFrom_snd (fuel : Nat) (m : Machine) (polls : Polls) (block : Nat) :
    (tracedFrom fuel m polls block).2 = runFrom fuel m polls block := by
  induction fuel generalizing m polls block with
  | zero => rfl
  | succ fuel ih =>
    unfold tracedFrom runFrom
    cases m.graph.blocks[block]? with
    | none => rfl
    | some b =>
      dsimp only
      split
      · rfl
      · split
        · rfl
        · generalize step { m with steps := m.steps + 1 } b = after
          obtain ⟨transfer, m₁⟩ := after
          cases transfer with
          | goto target => exact ih m₁ _ target
          | finish value => rfl
          | fail error => cases error <;> rfl

theorem traced_snd (fuel : Nat) (m : Machine) (polls : Polls) :
    (m.traced fuel polls).2 = m.run fuel polls := by
  unfold traced run
  dsimp only
  obtain ⟨vars, unknown⟩ := bindInputs m.reset.slots m.reset.inputs.entries m.reset.vars
  cases unknown with
  | some name => rfl
  | none => exact tracedFrom_snd fuel _ polls 0

/-! ### Counting -/

theorem steps_step (m : Machine) (b : Block) : (m.step b).2.steps = m.steps := by
  unfold step
  dsimp only
  split <;> rfl

theorem limit_step (m : Machine) (b : Block) : (m.step b).2.limit = m.limit := by
  unfold step
  dsimp only
  split <;> rfl

/-- From one machine to another some blocks were executed, and the run ended.  They were counted,
and one more if it was too many. -/
structure Counted (m : Machine) (blocks : List Nat) (outcome : Outcome) (m' : Machine) : Prop where
  limit_eq : m'.limit = m.limit
  within : outcome.exceedsLimit = false → m'.steps = m.steps + blocks.length
  beyond : outcome.exceedsLimit = true →
    m'.steps = m.steps + blocks.length + 1 ∧ ¬ Allows m.limit (m.steps + blocks.length + 1)
  allowed : Allows m.limit m.steps → Allows m.limit (m.steps + blocks.length)

/-- A run that ends before a block, otherwise than by its limit. -/
theorem Counted.nil (m : Machine) (houtcome : outcome.exceedsLimit = false) :
    Counted m [] outcome m where
  limit_eq := rfl
  within _ := rfl
  beyond h := by rw [houtcome] at h; cases h
  allowed h := h

/-- A run that is stopped by its limit. -/
theorem Counted.stopped (name : String) (limit : Int) (h : ¬ Allows m.limit (m.steps + 1)) :
    Counted m [] (.failed (.stepLimit name limit)) { m with steps := m.steps + 1 } where
  limit_eq := rfl
  within h := by cases h
  beyond _ := ⟨rfl, h⟩
  allowed h := h

/-- **One more block:** it is counted when it is executed, if the limit allows it. -/
theorem Counted.cons (block : Nat) (hlimit : m₁.limit = m.limit) (hsteps : m₁.steps = m.steps + 1)
    (hallowed : Allows m.limit (m.steps + 1)) (h : Counted m₁ rest outcome m') :
    Counted m (block :: rest) outcome m' := by
  have hlength : m₁.steps + rest.length = m.steps + (block :: rest).length := by
    rw [hsteps, List.length_cons]
    omega
  refine ⟨h.limit_eq.trans hlimit, fun hwithin => ?_, fun hbeyond => ?_, fun _ => ?_⟩
  · rw [h.within hwithin, hlength]
  · rw [← hlength, ← hlimit]
    exact h.beyond hbeyond
  · rw [← hlength, ← hlimit]
    apply h.allowed
    rw [hlimit, hsteps]
    exact hallowed

/-- **What a run counts from a block on.** -/
theorem counted_tracedFrom (fuel : Nat) (m : Machine) (polls : Polls) (block : Nat) :
    Counted m (tracedFrom fuel m polls block).1 (tracedFrom fuel m polls block).2.1
      (tracedFrom fuel m polls block).2.2.1 := by
  induction fuel generalizing m polls block with
  | zero => exact .nil m rfl
  | succ fuel ih =>
    unfold tracedFrom
    split
    · exact .nil m rfl
    · rename_i b _
      dsimp only
      split
      · exact .nil m rfl
      · split
        · rename_i hexceeded
          refine .stopped b.name m.limit ?_
          unfold Allows
          omega
        · rename_i hwithin
          have hallowed : Allows m.limit (m.steps + 1) := by
            unfold Allows
            omega
          -- The block is executed; what follows it starts from the machine that it leaves.
          have hlimit := limit_step { m with steps := m.steps + 1 } b
          have hsteps := steps_step { m with steps := m.steps + 1 } b
          split
          · rename_i target m₁ hstep
            rw [hstep] at hlimit hsteps
            exact .cons block hlimit hsteps hallowed (ih m₁ _ target)
          all_goals
            rename_i hstep
            rw [hstep] at hlimit hsteps
            exact .cons block hlimit hsteps hallowed (.nil _ rfl)

/-- **The count of a run.**  Take any machine, whatever was run on it before, and any moment of
cancellation.  The run that notes the blocks it begins to execute is the run itself.  Unless a run
is stopped by its limit, it counts the blocks it began to execute.  A run that is stopped by its
limit has executed as many blocks as the limit says, and counts one more.  So with a limit the count
is at most the limit exactly if the run was not stopped by it. -/
theorem steps_run (m : Machine) (fuel : Nat) (polls : Polls) :
    (m.traced fuel polls).2 = m.run fuel polls ∧
    ((m.run fuel polls).1.exceedsLimit = false →
      (m.run fuel polls).2.1.steps = (m.traced fuel polls).1.length) ∧
    ((m.run fuel polls).1.exceedsLimit = true →
      (m.run fuel polls).2.1.steps = (m.traced fuel polls).1.length + 1 ∧
      ((m.traced fuel polls).1.length : Int) = m.limit) ∧
    (0 < m.limit → (((m.run fuel polls).2.1.steps : Int) ≤ m.limit ↔
      (m.run fuel polls).1.exceedsLimit = false)) := by
  have hcounted : ∃ start : Machine, start.steps = 0 ∧ start.limit = m.limit ∧
      Counted start (m.traced fuel polls).1 (m.traced fuel polls).2.1
        (m.traced fuel polls).2.2.1 := by
    unfold traced
    dsimp only
    obtain ⟨vars, unknown⟩ := bindInputs m.reset.slots m.reset.inputs.entries m.reset.vars
    refine ⟨{ m.reset with vars := vars }, rfl, rfl, ?_⟩
    cases unknown with
    | some name => exact .nil _ rfl
    | none => exact counted_tracedFrom fuel _ polls 0
  obtain ⟨start, hzero, hlimit, h⟩ := hcounted
  have hsnd := traced_snd fuel m polls
  rw [← hsnd]
  have hwithin := h.within
  have hbeyond := h.beyond
  have hallowed := h.allowed
  rw [hzero, Nat.zero_add, hlimit] at hbeyond hallowed
  rw [hzero, Nat.zero_add] at hwithin
  unfold Allows at hbeyond hallowed
  refine ⟨rfl, hwithin, fun hexceeds => ?_, fun hpos => ?_⟩
  · obtain ⟨hsteps, hlast⟩ := hbeyond hexceeds
    exact ⟨hsteps, by omega⟩
  · cases hexceeds : (m.traced fuel polls).2.1.exceedsLimit with
    | false =>
      have hsteps := hwithin hexceeds
      simp only [iff_true]
      omega
    | true =>
      obtain ⟨hsteps, hlast⟩ := hbeyond hexceeds
      simp only [Bool.true_eq_false, iff_false]
      omega

/-- A block that branches to itself. -/
def spinning : Graph where
  vars := []
  blocks := #[⟨0, "loop", [], some (.jump 0), [0]⟩]

/-- **The count can exceed the limit.**  With a limit of three the block is executed three times,
and four blocks are counted. -/
theorem steps_spinning :
    ((new spinning 3 (.ofList [])).traced 10 none).1 = [0, 0, 0] ∧
    ((new spinning 3 (.ofList [])).run 10 none).1 = .failed (.stepLimit "entry" 3) ∧
    ((new spinning 3 (.ofList [])).run 10 none).2.1.steps = 4 := by
  decide +kernel

end Machine

end BlockFlow
