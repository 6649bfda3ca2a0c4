import BlockFlow.Proofs.Safety

/-!
# Machines can be used again

A run leaves a machine in disorder: it may stop between two stores, or inside an expression with
operands still on the stack, whose array may have grown and is never cleared.  None of that can be
seen by a later run.  Whatever was run on a machine before, and however these runs ended, the next
run reports what the first run of a new machine would (`Machine.report_after`).

What counting and executing blocks keep, runs keep (`Machine.runFrom_induction`); so a machine stays
intact, whether its graph is sound or not.  An intact machine and a new one are twins as soon as
both are reset, which is how every run begins.
-/

namespace BlockFlow

theorem Graph.Alike.refl (g : Graph) : g.Alike g :=
  ⟨rfl, rfl, fun _ b hb => ⟨b, hb, rfl, fun _ _ => rfl⟩⟩

namespace Machine

/-! ### What a block leaves alone -/

theorem size_storeAll (slots : List (String × Nat)) (stores : List Store) (vars : Array Int64) :
    (storeAll slots stores vars).1.size = vars.size := by
  induction stores generalizing vars with
  | nil => rfl
  | cons store rest ih =>
    rw [storeAll]
    split
    · rfl
    · dsimp only
      split
      · rw [ih, Array.size_setIfInBounds]
      · rfl

theorem size_effect (slots : List (String × Nat)) (b : Block) (vars : Array Int64) :
    (effect slots b vars).2.size = vars.size := by
  have hsize := size_storeAll slots b.stores vars
  unfold effect
  split
  · rename_i heq
    rw [heq] at hsize
    exact hsize
  · rename_i heq
    rw [heq] at hsize
    exact hsize

variable {g : Graph} {limit : Int} {inputs : Inputs} {m : Machine}

/-- A block of any graph keeps a machine intact. -/
theorem Intact.keep_step (h : Intact g limit inputs m) (b : Block) :
    Intact g limit inputs (m.step b).2 := by
  obtain ⟨s, hs, hstep⟩ := step_spec m b h.usable
  rw [hstep]
  exact ⟨h.graph_eq, h.limit_eq, h.inputs_eq, h.slots_eq, (size_effect _ _ _).trans h.size_eq, hs⟩

/-! ### What runs leave alone -/

/-- **What counting and executing blocks keep, runs keep.** -/
theorem runFrom_induction {P : Machine → Prop}
    (hcount : ∀ m, P m → P { m with steps := m.steps + 1 })
    (hstep : ∀ m b, P m → P (m.step b).2) (fuel : Nat) :
    ∀ {m : Machine} (polls : Polls) (block : Nat), P m → P (m.runFrom fuel polls block).2.1 := by
  induction fuel with
  | zero => exact fun _ _ h => h
  | succ fuel ih =>
    intro m polls block h
    rw [runFrom]
    split
    · exact h
    · rename_i b _
      dsimp only
      split
      · exact h
      · have hcounted := hcount m h
        split
        · exact hcounted
        · have hafter := hstep _ b hcounted
          generalize step { m with steps := m.steps + 1 } b = after at hafter ⊢
          obtain ⟨transfer, m'⟩ := after
          cases transfer with
          | goto target => exact ih _ target hafter
          | finish value => exact hafter
          | fail error => cases error <;> exact hafter

/-- **Runs keep a machine intact,** however they end. -/
theorem Intact.keep_run (h : Intact g limit inputs m) (fuel : Nat) (polls : Polls) :
    Intact g limit inputs (m.run fuel polls).2.1 := by
  have hreset := h.reset
  have hsize := (bindInputs_spec m.reset.inputs.entries hreset.size_eq).1
  rw [← hreset.slots_eq] at hsize
  unfold Machine.run
  dsimp only
  generalize bindInputs m.reset.slots m.reset.inputs.entries m.reset.vars = bound at hsize ⊢
  obtain ⟨vars, unknown⟩ := bound
  have hbound : Intact g limit inputs { m.reset with vars := vars } :=
    ⟨hreset.graph_eq, hreset.limit_eq, hreset.inputs_eq, hreset.slots_eq, hsize, hreset.usable⟩
  cases unknown with
  | some name => exact hbound
  | none =>
    refine runFrom_induction (fun m hm => ?_) (fun m b hm => hm.keep_step b) fuel polls 0 hbound
    exact ⟨hm.graph_eq, hm.limit_eq, hm.inputs_eq, hm.slots_eq, hm.size_eq, hm.usable⟩

/-! ### Earlier runs -/

/-- The machine after some runs, each with its own bound on blocks and its own moment of
cancellation. -/
def after (m : Machine) (history : List (Nat × Polls)) : Machine :=
  history.foldl (fun m run => (m.run run.1 run.2).2.1) m

/-- What can be seen of the next run. -/
def report (m : Machine) (fuel : Nat) (polls : Polls) : Report :=
  let (outcome, m, polls) := m.run fuel polls
  ⟨outcome, m.steps, m.get?, polls⟩

theorem Intact.after (h : Intact g limit inputs m) (history : List (Nat × Polls)) :
    Intact g limit inputs (m.after history) := by
  induction history generalizing m with
  | nil => exact h
  | cons run rest ih => exact ih (h.keep_run run.1 run.2)

/-- Resetting a machine first makes no difference to a run, which does so anyway. -/
theorem report_reset (m : Machine) (fuel : Nat) (polls : Polls) :
    m.reset.report fuel polls = m.report fuel polls := by
  have hreset : m.reset.reset = m.reset := by
    simp only [reset, Array.map_map]
    rfl
  have hrun : m.reset.run fuel polls = m.run fuel polls := by
    rw [run, run, hreset]
  rw [report, report, hrun]

/-- Two machines that are intact for one graph are twins once they are reset. -/
theorem Intact.twin_reset {m' : Machine} (h : Intact g limit inputs m)
    (h' : Intact g limit inputs m') : Twin m.reset m'.reset where
  graph := by
    show m.graph.Alike m'.graph
    rw [h.graph_eq, h'.graph_eq]
    exact .refl g
  limit_eq := h'.limit_eq.trans h.limit_eq.symm
  inputs_eq := h'.inputs_eq.trans h.inputs_eq.symm
  slots_eq := h'.slots_eq.trans h.slots_eq.symm
  vars_eq := by
    have hsize : m'.vars.size = m.vars.size := h'.size_eq.trans h.size_eq.symm
    simp only [Machine.reset, Array.map_const', hsize]
  steps_eq := rfl
  usable := h.reset.usable
  usable' := h'.reset.usable

/-- **A machine can be used again.**  For every graph, limit and set of inputs, and whatever was run
on the machine before (to the end, into an error in the middle of an expression, beyond the limit,
into a cancellation, or not at all because an input was refused), the next run ends in the same way
and leaves the same count and the same variables as the first run of a new machine that is cancelled
at the same moment. -/
theorem report_after (g : Graph) (limit : Int) (inputs : Inputs) (history : List (Nat × Polls))
    (fuel : Nat) (polls : Polls) :
    ((new g limit inputs).after history).report fuel polls =
      (new g limit inputs).report fuel polls := by
  have hnew := Intact.new g limit inputs
  obtain ⟨houtcome, hpolls, htwin⟩ := ((hnew.after history).twin_reset hnew).run fuel polls
  rw [← report_reset, ← report_reset (new g limit inputs)]
  have hget : ((new g limit inputs).reset.run fuel polls).2.1.get? =
      (((new g limit inputs).after history).reset.run fuel polls).2.1.get? := by
    funext name
    simp only [get?, slot?, htwin.slots_eq, htwin.vars_eq]
  simp only [report, houtcome, hpolls, htwin.steps_eq, hget]

-- A division that fails leaves its left operand on the stack; the next run does not meet it.
example :
    ((new Graph.dividingGraph 6 (.ofList [("x", 9)])).after [(10, none)]).stack.depth = 1 := by
  decide +kernel

end Machine

end BlockFlow
