import BlockFlow.Machine.Batch

/-!
# Runs that end

A run is given a number of blocks to execute at most.  Once that number suffices, a larger one
changes nothing (`Machine.run_of_le`).  So a run that ends has one outcome and one count of blocks
(`Machine.EndsWith.unique`), and a batch has one result for each of its inputs.
-/

namespace BlockFlow

/-- The run ended by itself, with a value or with an error. -/
def Outcome.Ended (o : Outcome) : Prop :=
  o ≠ unfinished ∧ o ≠ crashed

instance (o : Outcome) : Decidable o.Ended :=
  inferInstanceAs (Decidable (_ ∧ _))

namespace Machine

variable {fuel fuel' : Nat} {m : Machine} {polls : Polls}

theorem runFrom_of_le (h : fuel ≤ fuel') {block : Nat}
    (hends : (m.runFrom fuel polls block).1 ≠ .unfinished) :
    m.runFrom fuel' polls block = m.runFrom fuel polls block := by
  induction fuel generalizing fuel' m polls block with
  | zero => exact absurd rfl hends
  | succ fuel ih =>
    obtain ⟨fuel', rfl⟩ : ∃ k, fuel' = k + 1 := ⟨fuel' - 1, by omega⟩
    rw [runFrom] at hends
    rw [runFrom, runFrom]
    -- Only a block that names a next one asks for more blocks.
    split
    · rfl
    · rename_i b hb
      rw [hb] at hends
      dsimp only at hends ⊢
      split
      · rfl
      · rename_i hpolls
        rw [if_neg hpolls] at hends
        split
        · rfl
        · rename_i hlimit
          rw [if_neg hlimit] at hends
          split
          · rename_i target m' hstep
            rw [hstep] at hends
            exact ih (by omega) hends
          all_goals rfl

/-- **Once a run has ended, more blocks change nothing.** -/
theorem run_of_le (h : fuel ≤ fuel') (hends : (m.run fuel polls).1 ≠ .unfinished) :
    m.run fuel' polls = m.run fuel polls := by
  unfold run at hends ⊢
  dsimp only at hends ⊢
  split
  · rfl
  · rename_i vars hbind
    rw [hbind] at hends
    exact runFrom_of_le h hends

/-- Two numbers of blocks that suffice lead to the same end. -/
theorem run_eq_of_ne_unfinished (h : (m.run fuel polls).1 ≠ .unfinished)
    (h' : (m.run fuel' polls).1 ≠ .unfinished) : m.run fuel' polls = m.run fuel polls := by
  rcases Nat.le_total fuel fuel' with hle | hle
  · exact run_of_le hle h
  · exact (run_of_le hle h').symm

/-- A run that has not ended yet was given fewer blocks than one that has. -/
theorem lt_of_unfinished (h : (m.run fuel polls).1 ≠ .unfinished)
    (h' : (m.run fuel' polls).1 = .unfinished) : fuel' < fuel := by
  refine Nat.lt_of_not_le fun hle => h ?_
  rw [← run_of_le hle h]
  exact h'

/-- The run of a machine that nobody cancels ends with an outcome, and has counted blocks. -/
def EndsWith (m : Machine) (outcome : Outcome) (steps : Nat) : Prop :=
  outcome.Ended ∧ ∃ fuel, (m.run fuel none).1 = outcome ∧ (m.run fuel none).2.1.steps = steps

/-- **A run ends in one way.** -/
theorem EndsWith.unique {outcome outcome' : Outcome} {steps steps' : Nat}
    (h : m.EndsWith outcome steps) (h' : m.EndsWith outcome' steps') :
    outcome = outcome' ∧ steps = steps' := by
  obtain ⟨hended, fuel, rfl, rfl⟩ := h
  obtain ⟨hended', fuel', rfl, rfl⟩ := h'
  rw [run_eq_of_ne_unfinished hended.1 hended'.1]
  exact ⟨rfl, rfl⟩

/-- Runs that end have a number of blocks that suffices for all of them. -/
theorem exists_ended_run {graph : Graph} {limit : Int} {inputs : List Inputs}
    (h : ∀ values ∈ inputs, ∃ outcome steps, (new graph limit values).EndsWith outcome steps) :
    ∃ fuel, ∀ values ∈ inputs, ((new graph limit values).run fuel none).1.Ended := by
  induction inputs with
  | nil => exact ⟨0, nofun⟩
  | cons first rest ih =>
    obtain ⟨_, _, hended, fuel, rfl, -⟩ := h first List.mem_cons_self
    obtain ⟨fuel', hrest⟩ := ih fun values hvalues => h values (List.mem_cons_of_mem _ hvalues)
    refine ⟨max fuel fuel', List.forall_mem_cons.mpr ⟨?_, fun values hvalues => ?_⟩⟩
    · rwa [run_of_le (Nat.le_max_left _ _) hended.1]
    · have hlast := hrest values hvalues
      rwa [run_of_le (Nat.le_max_right _ _) hlast.1]

end Machine

/-! ### The results of a batch -/

section Batch

variable (fuel : Nat) (graph : Graph) (limit : Int) (inputs : List Inputs)

theorem getElem?_runBatch (i : Nat) : (runBatch fuel graph limit inputs)[i]? =
    inputs[i]?.map (JobResult.ofInputs fuel graph limit i) := by
  rw [runBatch, List.getElem?_map, List.getElem?_zipIdx, Option.map_map, Nat.zero_add]
  rfl

theorem length_runBatch : (runBatch fuel graph limit inputs).length = inputs.length := by
  rw [runBatch, List.length_map, List.length_zipIdx]

/-- The results of a batch are numbered in their order. -/
theorem pairwise_runBatch : (runBatch fuel graph limit inputs).Pairwise (·.job < ·.job) := by
  have hnumbers : (inputs.zipIdx.map Prod.snd).Pairwise (· < ·) := by
    rw [List.zipIdx_map_snd]
    exact List.pairwise_lt_range' _
  rw [runBatch, List.pairwise_map]
  exact List.pairwise_map.mp hnumbers

variable {fuel graph limit inputs}

/-- A result of a batch stands at the number of its job. -/
theorem getElem?_job_of_mem_runBatch {r : JobResult}
    (h : r ∈ runBatch fuel graph limit inputs) :
    (runBatch fuel graph limit inputs)[r.job]? = some r := by
  obtain ⟨i, hi⟩ := List.mem_iff_getElem?.mp h
  have hjob : r.job = i := by
    rw [getElem?_runBatch] at hi
    obtain ⟨values, -, rfl⟩ := Option.map_eq_some_iff.mp hi
    rfl
  rw [hjob]
  exact hi

/-- If the jobs of a batch end, the runs do. -/
theorem ended_run_of_runBatch (h : ∀ r ∈ runBatch fuel graph limit inputs, r.outcome.Ended) :
    ∀ values ∈ inputs, ((Machine.new graph limit values).run fuel none).1.Ended := by
  intro values hvalues
  obtain ⟨i, hi⟩ := List.mem_iff_getElem?.mp hvalues
  refine h (.ofInputs fuel graph limit i values) (List.mem_iff_getElem?.mpr ⟨i, ?_⟩)
  rw [getElem?_runBatch, hi]
  rfl

end Batch

end BlockFlow
