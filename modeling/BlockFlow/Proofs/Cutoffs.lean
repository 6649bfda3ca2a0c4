import BlockFlow.Proofs.Reuse
import BlockFlow.Proofs.Batch.Endings

/-!
# Where runs are cut off

A limit on the number of blocks and a cancellation stop a run between two blocks.  They do nothing
else: up to there the run is the free run, the one that is neither limited nor cancelled.  So the
report of any run can be read off from the free run (`Machine.report_cut`): it is the report of the
free run if that ends in time, and otherwise the variables are those that the free run has after as
many blocks as it was allowed.

Executing a block neither looks at the limit nor at the count (`Machine.exists_step_eq`).  Hence a
run that is not stopped within the first blocks goes on after them where the free run does
(`Machine.exists_passed`), and what happens there is decided by looking at one more block.
-/

namespace BlockFlow

namespace Machine

/-! ### The free run -/

/-- The same machine with another limit. -/
def limited (m : Machine) (limit : Int) : Machine :=
  { m with limit := limit }

/-- A limit on blocks allows that many of them; there is no limit when it is not positive. -/
def Allows (limit : Int) (n : Nat) : Prop :=
  limit ≤ 0 ∨ (n : Int) ≤ limit

theorem Allows.mono {limit : Int} {k n : Nat} (h : Allows limit n) (hle : k ≤ n) :
    Allows limit k := by
  unfold Allows at h ⊢
  omega

/-- What can be seen of a run that is neither limited nor cancelled, when it has executed blocks or
has ended before. -/
def freeReport (g : Graph) (inputs : Inputs) (n : Nat) : Report :=
  (new g 0 inputs).report n none

/-- The free run ends, with a value or an error, in its `k`-th block. -/
def FreeEnds (g : Graph) (inputs : Inputs) (k : Nat) : Prop :=
  (freeReport g inputs k).outcome ≠ .unfinished ∧
    ∀ j < k, (freeReport g inputs j).outcome = .unfinished

/-- The machine at the start of a run: it is cleared and has its inputs. -/
def start (m : Machine) : Machine :=
  { m.reset with vars := (bindInputs m.reset.slots m.reset.inputs.entries m.reset.vars).1 }

/-- The block that comes next after executing blocks from the given one on, if they lead to one. -/
def comesTo? : (n : Nat) → Machine → (block : Nat) → Option Block
  | 0, m, block => m.graph.blocks[block]?
  | n + 1, m, block =>
    match m.graph.blocks[block]? with
    | none => none
    | some b =>
      match step { m with steps := m.steps + 1 } b with
      | (.goto target, m) => comesTo? n m target
      | _ => none

/-- The block that the free run executes after the first blocks. -/
def freeBlock? (g : Graph) (inputs : Inputs) (n : Nat) : Option Block :=
  comesTo? n (new g 0 inputs).start 0

/-! ### One block -/

variable {g : Graph} {inputs : Inputs} {m m' : Machine} {b : Block} {block block' fuel n : Nat}
  {limit limit' : Int} {polls : Polls}

/-- How a run goes on after a block. -/
def resume (fuel : Nat) (polls : Polls) (b : Block) : Transfer × Machine → Outcome × Machine × Polls
  | (.goto target, m) => runFrom fuel m polls target
  | (.finish value, m) => (.finished value, m, polls)
  | (.fail .outOfBounds, m) => (.crashed, m, polls)
  | (.fail error, m) => (.failed (.inBlock b.name error), m, polls)

/-- A block changes variables and stack, and does not look at the limit. -/
theorem exists_step_eq (m : Machine) (b : Block) : ∃ transfer m₁, m₁.graph = m.graph ∧
    m₁.steps = m.steps ∧ m.step b = (transfer, m₁) ∧
    ∀ limit, (m.limited limit).step b = (transfer, m₁.limited limit) := by
  unfold step limited
  dsimp only
  split
  · refine ⟨_, _, ?_, ?_, rfl, fun _ => rfl⟩ <;> rfl
  · refine ⟨_, _, ?_, ?_, rfl, fun _ => rfl⟩ <;> rfl

theorem some_sub_ne {c : Nat} (h : n < c) : some (c - n) ≠ some 0 := by
  intro hzero
  have hsub := Option.some.inj hzero
  omega

theorem runFrom_missing (hb : m.graph.blocks[block]? = none) :
    m.runFrom (fuel + 1) polls block = (.crashed, m, polls) := by
  rw [runFrom, hb]

theorem runFrom_cancelled (hb : m.graph.blocks[block]? = some b) :
    m.runFrom (fuel + 1) (some 0) block = (.failed .cancelled, m, some 0) := by
  rw [runFrom, hb]
  exact if_pos rfl

theorem runFrom_stopped (hb : m.graph.blocks[block]? = some b) (hpolls : polls ≠ some 0)
    (hlimit : ¬ Allows m.limit (m.steps + 1)) : m.runFrom (fuel + 1) polls block =
      (.failed (.stepLimit b.name m.limit), { m with steps := m.steps + 1 },
        polls.map (· - 1)) := by
  unfold Allows at hlimit
  rw [runFrom, hb]
  dsimp only
  rw [if_neg hpolls, if_pos (by omega)]

theorem runFrom_passing (hb : m.graph.blocks[block]? = some b) (hpolls : polls ≠ some 0)
    (hlimit : Allows m.limit (m.steps + 1)) : m.runFrom (fuel + 1) polls block =
      resume fuel (polls.map (· - 1)) b (step { m with steps := m.steps + 1 } b) := by
  unfold Allows at hlimit
  rw [runFrom, hb]
  dsimp only
  rw [if_neg hpolls, if_neg (by omega)]
  unfold resume
  generalize step { m with steps := m.steps + 1 } b = after
  obtain ⟨transfer, m'⟩ := after
  cases transfer with
  | fail error => cases error <;> rfl
  | _ => rfl

/-- **Unless it is stopped, a run executes the next block,** whatever its limit and whenever it is
cancelled later. -/
theorem exists_runFrom_eq (hb : m.graph.blocks[block]? = some b) : ∃ transfer m₁,
    m₁.graph = m.graph ∧ m₁.steps = m.steps + 1 ∧
    step { m with steps := m.steps + 1 } b = (transfer, m₁) ∧
    ∀ limit polls fuel, polls ≠ some 0 → Allows limit (m.steps + 1) →
      runFrom (fuel + 1) (m.limited limit) polls block =
        resume fuel (polls.map (· - 1)) b (transfer, m₁.limited limit) := by
  obtain ⟨transfer, m₁, hgraph, hsteps, hstep, hlimited⟩ :=
    exists_step_eq { m with steps := m.steps + 1 } b
  refine ⟨transfer, m₁, hgraph, hsteps, hstep, fun limit polls fuel hpolls hlimit => ?_⟩
  have hpassing : runFrom (fuel + 1) (m.limited limit) polls block = _ :=
    runFrom_passing hb hpolls hlimit
  rw [hpassing]
  exact congrArg (resume fuel (polls.map (· - 1)) b) (hlimited limit)

/-- A block in which the free run ends also ends every other run that comes so far. -/
theorem runFrom_of_ended (hended : (runFrom 1 (m.limited 0) none block).1.Ended)
    (hpolls : polls ≠ some 0) (hlimit : Allows limit (m.steps + 1)) (fuel : Nat) :
    ∃ last : Machine, last.steps = m.steps + 1 ∧
      last.get? = (runFrom 1 (m.limited 0) none block).2.1.get? ∧
      runFrom (fuel + 1) (m.limited limit) polls block =
        ((runFrom 1 (m.limited 0) none block).1, last, polls.map (· - 1)) := by
  obtain ⟨hfinite, hsafe⟩ := hended
  cases hb : m.graph.blocks[block]? with
  | none =>
    have hmissing : runFrom 1 (m.limited 0) none block = _ := runFrom_missing hb
    rw [hmissing] at hsafe
    exact absurd rfl hsafe
  | some b =>
    obtain ⟨transfer, m₁, _, hsteps, _, hrun⟩ := exists_runFrom_eq hb
    have hfree := hrun 0 none 0 (by decide) (.inl (Int.le_refl 0))
    rw [Nat.zero_add] at hfree
    rw [hfree] at hfinite hsafe ⊢
    rw [hrun limit polls fuel hpolls hlimit]
    cases transfer with
    | goto target => exact absurd rfl hfinite
    | finish value => exact ⟨m₁.limited limit, hsteps, rfl, rfl⟩
    | fail error =>
      cases error with
      | outOfBounds => exact absurd rfl hsafe
      | _ => exact ⟨m₁.limited limit, hsteps, rfl, rfl⟩

/-! ### Passing blocks -/

/-- From a block on, executing `n` blocks leads to another machine and block: every run that is
neither cancelled nor stopped before it has executed so many goes on from there. -/
structure Passed (n : Nat) (m : Machine) (block : Nat) (m' : Machine) (block' : Nat) : Prop where
  graph_eq : m'.graph = m.graph
  steps_eq : m'.steps = m.steps + n
  next : comesTo? n m block = m.graph.blocks[block']?
  runFrom_eq : ∀ limit polls fuel, (∀ c, polls = some c → n ≤ c) → Allows limit (m.steps + n) →
    runFrom (n + fuel) (m.limited limit) polls block =
      runFrom fuel (m'.limited limit) (polls.map (· - n)) block'

theorem Passed.zero (m : Machine) (block : Nat) : Passed 0 m block (m.limited 0) block where
  graph_eq := rfl
  steps_eq := rfl
  next := rfl
  runFrom_eq limit polls fuel _ _ := by
    rw [show polls.map (· - 0) = polls from Option.map_id', Nat.zero_add]
    rfl

/-- Passing one block and then others. -/
theorem Passed.cons {m₁ : Machine} {target : Nat} (hb : m.graph.blocks[block]? = some b)
    (hgraph : m₁.graph = m.graph) (hsteps : m₁.steps = m.steps + 1)
    (hstep : step { m with steps := m.steps + 1 } b = (.goto target, m₁))
    (hrun : ∀ limit polls fuel, polls ≠ some 0 → Allows limit (m.steps + 1) →
      runFrom (fuel + 1) (m.limited limit) polls block =
        runFrom fuel (m₁.limited limit) (polls.map (· - 1)) target)
    (h : Passed n m₁ target m' block') : Passed (n + 1) m block m' block' where
  graph_eq := h.graph_eq.trans hgraph
  steps_eq := by
    have heq := h.steps_eq
    omega
  next := by
    rw [comesTo?, hb]
    simp only [hstep]
    rw [h.next, hgraph]
  runFrom_eq limit polls fuel hpolls hlimit := by
    have hfirst : polls ≠ some 0 := by
      intro hzero
      have hle := hpolls 0 hzero
      omega
    have hrest : ∀ c, polls.map (· - 1) = some c → n ≤ c := by
      intro c hc
      obtain ⟨c', hc', rfl⟩ := Option.map_eq_some_iff.mp hc
      have hle := hpolls c' hc'
      omega
    have hmap : (polls.map (· - 1)).map (· - n) = polls.map (· - (n + 1)) := by
      rw [Option.map_map]
      refine congrArg (Option.map · polls) (funext fun c => ?_)
      show c - 1 - n = c - (n + 1)
      omega
    have hnow : Allows limit (m.steps + 1) := hlimit.mono (by omega)
    have hlater : Allows limit (m₁.steps + n) := hlimit.mono (by omega)
    rw [show n + 1 + fuel = (n + fuel) + 1 by omega, hrun limit polls (n + fuel) hfirst hnow,
      h.runFrom_eq limit _ fuel hrest hlater, hmap]

/-- **As long as the free run has not ended, other runs pass the same blocks.** -/
theorem exists_passed (h : (runFrom n (m.limited 0) none block).1 = .unfinished) :
    ∃ block', Passed n m block (runFrom n (m.limited 0) none block).2.1 block' := by
  induction n generalizing m block with
  | zero => exact ⟨block, .zero m block⟩
  | succ n ih =>
    cases hb : m.graph.blocks[block]? with
    | none =>
      rw [runFrom_missing (m := m.limited 0) hb] at h
      cases h
    | some b =>
      obtain ⟨transfer, m₁, hgraph, hsteps, hstep, hrun⟩ := exists_runFrom_eq hb
      rw [hrun 0 none n (by decide) (.inl (Int.le_refl 0))] at h ⊢
      cases transfer with
      | goto target =>
        obtain ⟨block', hpassed⟩ := ih h
        exact ⟨block', .cons hb hgraph hsteps hstep hrun hpassed⟩
      | finish value => cases h
      | fail error => cases error <;> cases h

/-! ### Raising the limit -/

/-- Two runs that differ in their limits are the same until the lower limit stops one. -/
theorem exists_runFrom_raised (hraised : limit' ≤ 0 ∨ 0 < limit ∧ limit ≤ limit')
    (h : ∀ name, (runFrom fuel (m.limited limit) polls block).1 ≠
      .failed (.stepLimit name limit)) :
    ∃ (outcome : Outcome) (last : Machine) (polls' : Polls),
      runFrom fuel (m.limited limit) polls block = (outcome, last.limited limit, polls') ∧
      runFrom fuel (m.limited limit') polls block = (outcome, last.limited limit', polls') := by
  induction fuel generalizing m polls block with
  | zero => exact ⟨.unfinished, m, polls, rfl, rfl⟩
  | succ fuel ih =>
    cases hb : m.graph.blocks[block]? with
    | none =>
      exact ⟨.crashed, m, polls, runFrom_missing (m := m.limited limit) hb,
        runFrom_missing (m := m.limited limit') hb⟩
    | some b =>
      by_cases hpolls : polls = some 0
      · subst hpolls
        exact ⟨.failed .cancelled, m, some 0, runFrom_cancelled (m := m.limited limit) hb,
          runFrom_cancelled (m := m.limited limit') hb⟩
      by_cases hlimit : Allows limit (m.steps + 1)
      · have hlimit' : Allows limit' (m.steps + 1) := by
          unfold Allows at hlimit ⊢
          omega
        obtain ⟨transfer, m₁, _, _, _, hrun⟩ := exists_runFrom_eq hb
        rw [hrun limit polls fuel hpolls hlimit] at h ⊢
        rw [hrun limit' polls fuel hpolls hlimit']
        cases transfer with
        | goto target => exact ih h
        | finish value => exact ⟨_, m₁, _, rfl, rfl⟩
        | fail error => cases error <;> exact ⟨_, m₁, _, rfl, rfl⟩
      · have hstopped : runFrom (fuel + 1) (m.limited limit) polls block = _ :=
          runFrom_stopped hb hpolls hlimit
        exact absurd (congrArg Prod.fst hstopped) (h b.name)

/-! ### Whole runs -/

/-- What can be seen of how a run ended. -/
def seen : Outcome × Machine × Polls → Report
  | (outcome, m, polls) => ⟨outcome, m.steps, m.get?, polls⟩

/-- With inputs for variables only, a run executes blocks from the entry on. -/
theorem run_new_eq (hinputs : ∀ entry ∈ inputs.entries, entry.1 ∈ g.vars) (limit : Int) (fuel : Nat)
    (polls : Polls) : (new g limit inputs).run fuel polls =
      runFrom fuel ((new g 0 inputs).start.limited limit) polls 0 := by
  have hzero : (Array.replicate g.vars.length (0 : Int64)).map (fun _ => (0 : Int64)) =
      Array.replicate g.vars.length 0 := Array.map_replicate
  obtain ⟨vars, hbind, _⟩ := (holds_zero g.vars).bindInputs inputs.increasing hinputs
  simp only [run, start, limited, reset, new, hzero, hbind]

/-- A run that may execute the first blocks goes on where the free run stands after them. -/
theorem Passed.runFrom_start {c : Nat} (h : Passed n (new g 0 inputs).start 0 m' block')
    (hlimit : Allows limit n) (hc : n ≤ c) (fuel : Nat) :
    runFrom (n + fuel) ((new g 0 inputs).start.limited limit) (some c) 0 =
      runFrom fuel (m'.limited limit) (some (c - n)) block' := by
  refine h.runFrom_eq limit (some c) fuel (fun c' hc' => ?_) ?_
  · obtain rfl : c = c' := Option.some.inj hc'
    exact hc
  · show Allows limit (0 + n)
    rwa [Nat.zero_add]

theorem Passed.steps_start (h : Passed n (new g 0 inputs).start 0 m' block') : m'.steps = n :=
  h.steps_eq.trans (Nat.zero_add n)

section Cut

variable (hinputs : ∀ entry ∈ inputs.entries, entry.1 ∈ g.vars)

include hinputs

theorem report_eq (limit : Int) (fuel : Nat) (polls : Polls) :
    (new g limit inputs).report fuel polls =
      seen (runFrom fuel ((new g 0 inputs).start.limited limit) polls 0) := by
  rw [report, run_new_eq hinputs]
  rfl

theorem freeReport_eq (n : Nat) :
    freeReport g inputs n = seen (runFrom n ((new g 0 inputs).start.limited 0) none 0) :=
  report_eq hinputs 0 n none

/-- Where the free run stands after some blocks, if it has not ended. -/
theorem exists_freePassed (hfree : (freeReport g inputs n).outcome = .unfinished) :
    ∃ m' block', Passed n (new g 0 inputs).start 0 m' block' ∧
      m'.get? = (freeReport g inputs n).get? := by
  rw [freeReport_eq hinputs] at hfree ⊢
  obtain ⟨block', hpassed⟩ := exists_passed hfree
  exact ⟨_, block', hpassed, rfl⟩

/-- One more block of the free run. -/
theorem freeReport_succ (hpassed : Passed n (new g 0 inputs).start 0 m' block') :
    freeReport g inputs (n + 1) = seen (runFrom 1 (m'.limited 0) none block') := by
  rw [freeReport_eq hinputs, hpassed.runFrom_eq 0 none 1 nofun (.inl (Int.le_refl 0))]
  rfl

/-- A free run that does not crash has a block to go on with. -/
theorem exists_next (hpassed : Passed n (new g 0 inputs).start 0 m' block')
    (hsafe : (freeReport g inputs (n + 1)).outcome ≠ .crashed) :
    ∃ b, m'.graph.blocks[block']? = some b ∧ freeBlock? g inputs n = some b := by
  cases hb : m'.graph.blocks[block']? with
  | none =>
    have hmissing : runFrom 1 (m'.limited 0) none block' = _ := runFrom_missing hb
    rw [freeReport_succ hinputs hpassed, hmissing] at hsafe
    exact absurd rfl hsafe
  | some b =>
    refine ⟨b, rfl, ?_⟩
    rw [freeBlock?, hpassed.next, ← hb, hpassed.graph_eq]

/-- A run that is given time and blocks enough ends as the free run does. -/
theorem report_of_freeEnds {c k : Nat} (hends : FreeEnds g inputs k)
    (hsafe : (freeReport g inputs k).outcome ≠ .crashed) (hc : k ≤ c) (hlimit : Allows limit k)
    (hfuel : k ≤ fuel) : (new g limit inputs).report fuel (some c) =
      ⟨(freeReport g inputs k).outcome, k, (freeReport g inputs k).get?, some (c - k)⟩ := by
  obtain ⟨hended, hbefore⟩ := hends
  -- A free run that has executed no block has not ended.
  have hpos : k ≠ 0 := by
    rintro rfl
    rw [freeReport_eq hinputs] at hended
    exact hended rfl
  obtain ⟨n, rfl⟩ : ∃ n, k = n + 1 := ⟨k - 1, by omega⟩
  obtain ⟨extra, rfl⟩ : ∃ extra, fuel = n + (extra + 1) := ⟨fuel - (n + 1), by omega⟩
  obtain ⟨m', block', hpassed, _⟩ := exists_freePassed hinputs (hbefore n (Nat.lt_succ_self n))
  rw [freeReport_succ hinputs hpassed] at hended hsafe ⊢
  have hpolls : some (c - n) ≠ some 0 := some_sub_ne hc
  have hlast : Allows limit (m'.steps + 1) := hpassed.steps_start.symm ▸ hlimit
  have hfirst : Allows limit n := hlimit.mono (Nat.le_succ n)
  obtain ⟨last, hsteps, hget, hrun⟩ := runFrom_of_ended ⟨hended, hsafe⟩ hpolls hlast extra
  have hpass := hpassed.runFrom_start hfirst (by omega : n ≤ c) (extra + 1)
  rw [report_eq hinputs, hpass, hrun]
  show Report.mk _ last.steps last.get? (some (c - n - 1)) = _
  rw [hsteps, hget, hpassed.steps_start, Nat.sub_sub]
  rfl

/-- A run that is cancelled before the free run ends has executed the blocks before. -/
theorem report_of_cancelled {c : Nat} (hfree : (freeReport g inputs c).outcome = .unfinished)
    (hsafe : (freeReport g inputs (c + 1)).outcome ≠ .crashed) (hlimit : Allows limit c)
    (hfuel : c < fuel) : (new g limit inputs).report fuel (some c) =
      ⟨.failed .cancelled, c, (freeReport g inputs c).get?, some 0⟩ := by
  obtain ⟨extra, rfl⟩ : ∃ extra, fuel = c + (extra + 1) := ⟨fuel - (c + 1), by omega⟩
  obtain ⟨m', block', hpassed, hget⟩ := exists_freePassed hinputs hfree
  obtain ⟨b, hb, _⟩ := exists_next hinputs hpassed hsafe
  have hpass := hpassed.runFrom_start hlimit (Nat.le_refl c) (extra + 1)
  have hcancelled : runFrom (extra + 1) (m'.limited limit) (some 0) block' =
      (.failed .cancelled, m'.limited limit, some 0) := runFrom_cancelled hb
  rw [Nat.sub_self, hcancelled] at hpass
  rw [report_eq hinputs, hpass, ← hget]
  show Report.mk _ m'.steps m'.get? (some 0) = _
  rw [hpassed.steps_start]

/-- A run that comes to its limit before the free run ends has executed the blocks before, and names
the one that was too many. -/
theorem report_of_stopped {c : Nat} (hfree : (freeReport g inputs n).outcome = .unfinished)
    (hsafe : (freeReport g inputs (n + 1)).outcome ≠ .crashed) (hlimit : Allows limit n)
    (hstop : ¬ Allows limit (n + 1)) (hc : n < c) :
    ∃ b, freeBlock? g inputs n = some b ∧ ∀ fuel, n < fuel →
      (new g limit inputs).report fuel (some c) =
        ⟨.failed (.stepLimit b.name limit), n + 1, (freeReport g inputs n).get?,
          some (c - n - 1)⟩ := by
  obtain ⟨m', block', hpassed, hget⟩ := exists_freePassed hinputs hfree
  obtain ⟨b, hb, hnext⟩ := exists_next hinputs hpassed hsafe
  have hpolls : some (c - n) ≠ some 0 := some_sub_ne hc
  have hstop' : ¬ Allows limit (m'.steps + 1) := hpassed.steps_start.symm ▸ hstop
  refine ⟨b, hnext, fun fuel hfuel => ?_⟩
  obtain ⟨extra, rfl⟩ : ∃ extra, fuel = n + (extra + 1) := ⟨fuel - (n + 1), by omega⟩
  have hpass := hpassed.runFrom_start hlimit (Nat.le_of_lt hc) (extra + 1)
  have hstopped : runFrom (extra + 1) (m'.limited limit) (some (c - n)) block' =
      (.failed (.stepLimit b.name limit), { m'.limited limit with steps := m'.steps + 1 },
        some (c - n - 1)) := runFrom_stopped hb hpolls hstop'
  rw [report_eq hinputs, hpass, hstopped, ← hget]
  show Report.mk _ (m'.steps + 1) m'.get? (some (c - n - 1)) = _
  rw [hpassed.steps_start]

/-- A higher limit changes no report that does not speak of the lower one. -/
theorem report_raised (hraised : limit' ≤ 0 ∨ 0 < limit ∧ limit ≤ limit')
    (h : ∀ name, ((new g limit inputs).report fuel polls).outcome ≠
      .failed (.stepLimit name limit)) :
    (new g limit' inputs).report fuel polls = (new g limit inputs).report fuel polls := by
  rw [report_eq hinputs] at h
  obtain ⟨outcome, last, polls', hlow, hhigh⟩ := exists_runFrom_raised hraised h
  rw [report_eq hinputs, report_eq hinputs, hlow, hhigh]
  rfl

omit hinputs in
/-- A free run that ends in none of its first blocks goes on after them. -/
theorem unfinished_of_not_freeEnds (h : ∀ k ≤ n, ¬ FreeEnds g inputs k) :
    (freeReport g inputs n).outcome = .unfinished := by
  induction n using Nat.strongRecOn with
  | _ n ih =>
    have hbefore : ∀ j < n, (freeReport g inputs j).outcome = .unfinished := fun j hj =>
      ih j hj fun k hk => h k (Nat.le_trans hk (Nat.le_of_lt hj))
    by_contra hended
    exact h n (Nat.le_refl n) ⟨hended, hbefore⟩

end Cut

/-- **Limit and cancellation cut a run at an exact place.**  Take a graph whose free run, without a
limit and never cancelled, does not crash, and inputs for its variables only.  Take any limit, none
if it is not positive, and a run that is cancelled when it asks for the `c + 1`-st time.

* If the free run ends in its `k`-th block, and the run may ask `k` times and execute `k` blocks,
  then it ends in the same way, with the same variables, and has counted `k` blocks.
* Otherwise, if it may execute as many blocks as it may ask times, it is cancelled, and its
  variables are those that the free run has after `c` blocks, which do not end it.
* Otherwise the limit is some `n`, and the error names the block that the free run executes after
  `n` others; the variables are those that it has after these.

The value of a cancelled or stopped run is zero.  Raising the limit, or lifting it, changes no
report but those that speak of the limit. -/
theorem report_cut {g : Graph} {inputs : Inputs}
    (hinputs : ∀ entry ∈ inputs.entries, entry.1 ∈ g.vars)
    (hsafe : ∀ n, (freeReport g inputs n).outcome ≠ .crashed) (limit : Int) (c : Nat) :
    (∀ k, FreeEnds g inputs k → k ≤ c → Allows limit k → ∀ fuel, k ≤ fuel →
      (new g limit inputs).report fuel (some c) =
        ⟨(freeReport g inputs k).outcome, k, (freeReport g inputs k).get?, some (c - k)⟩) ∧
    ((¬ ∃ k, FreeEnds g inputs k ∧ k ≤ c ∧ Allows limit k) →
      (Allows limit c → (freeReport g inputs c).outcome = .unfinished ∧ ∀ fuel, c < fuel →
        (new g limit inputs).report fuel (some c) =
          ⟨.failed .cancelled, c, (freeReport g inputs c).get?, some 0⟩ ∧
        ((new g limit inputs).report fuel (some c)).outcome.value = 0) ∧
      (¬ Allows limit c → ∃ (n : Nat) (b : Block), limit = n ∧
        (freeReport g inputs n).outcome = .unfinished ∧ freeBlock? g inputs n = some b ∧
        ∀ fuel, n < fuel → (new g limit inputs).report fuel (some c) =
          ⟨.failed (.stepLimit b.name limit), n + 1, (freeReport g inputs n).get?,
            some (c - n - 1)⟩ ∧
          ((new g limit inputs).report fuel (some c)).outcome.value = 0)) ∧
    ∀ limit', (limit' ≤ 0 ∨ 0 < limit ∧ limit ≤ limit') → ∀ fuel,
      (∀ name, ((new g limit inputs).report fuel (some c)).outcome ≠
        .failed (.stepLimit name limit)) →
      (new g limit' inputs).report fuel (some c) = (new g limit inputs).report fuel (some c) := by
  refine ⟨fun k hends hc hlimit fuel hfuel => ?_, fun hlong => ⟨fun hlimit => ?_, fun hlimit => ?_⟩,
    fun limit' hraised fuel h => report_raised hinputs hraised h⟩
  · exact report_of_freeEnds hinputs hends (hsafe k) hc hlimit hfuel
  · have hfree : (freeReport g inputs c).outcome = .unfinished :=
      unfinished_of_not_freeEnds fun k hk hends => hlong ⟨k, hends, hk, hlimit.mono hk⟩
    refine ⟨hfree, fun fuel hfuel => ?_⟩
    have hreport := report_of_cancelled hinputs hfree (hsafe (c + 1)) hlimit hfuel
    exact ⟨hreport, by rw [hreport]; rfl⟩
  · unfold Allows at hlimit
    obtain ⟨n, rfl⟩ : ∃ n : Nat, limit = n := ⟨limit.toNat, by omega⟩
    have hallowed : Allows n n := .inr (Int.le_refl n)
    have hstop : ¬ Allows n (n + 1) := by
      unfold Allows
      omega
    have hc : n < c := by omega
    have hfree : (freeReport g inputs n).outcome = .unfinished :=
      unfinished_of_not_freeEnds fun k hk hends =>
        hlong ⟨k, hends, Nat.le_trans hk (Nat.le_of_lt hc), hallowed.mono hk⟩
    obtain ⟨b, hb, hreport⟩ := report_of_stopped hinputs hfree (hsafe (n + 1)) hallowed hstop hc
    refine ⟨n, b, rfl, hfree, hb, fun fuel hfuel => ⟨hreport fuel hfuel, ?_⟩⟩
    rw [hreport fuel hfuel]
    rfl

/-- The free run of a sound graph does not crash. -/
theorem freeReport_ne_crashed (hg : g.Sound) (inputs : Inputs) (n : Nat) :
    (freeReport g inputs n).outcome ≠ .crashed := by
  intro hcrashed
  have hpermitted := ((Intact.new g 0 inputs).run hg n none).1
  have houtcome : ((new g 0 inputs).run n none).1 = .crashed := hcrashed
  rw [houtcome] at hpermitted
  exact hpermitted

/-- Dividing again and again with nine to start from, the free run fails in its fifth block.  A run
that may just execute five blocks fails there as well; asked to stop after three it has divided once
and come to zero; and with a limit of three it is the test of the loop that is too much. -/
theorem report_cut_dividing :
    (new Graph.dividingGraph 5 (.ofList [("x", 9)])).report 10 (some 5) =
      ⟨.failed (.inBlock "while.body2" .divisionByZero), 5,
        (freeReport Graph.dividingGraph (.ofList [("x", 9)]) 5).get?, some 0⟩ ∧
    (new Graph.dividingGraph 5 (.ofList [("x", 9)])).report 10 (some 3) =
      ⟨.failed .cancelled, 3, (freeReport Graph.dividingGraph (.ofList [("x", 9)]) 3).get?,
        some 0⟩ ∧
    (new Graph.dividingGraph 3 (.ofList [("x", 9)])).report 10 (some 4) =
      ⟨.failed (.stepLimit "while.cond1" 3), 4,
        (freeReport Graph.dividingGraph (.ofList [("x", 9)]) 3).get?, some 0⟩ ∧
    (freeReport Graph.dividingGraph (.ofList [("x", 9)]) 3).get? "x" = some 0 := by
  have hinputs : ∀ entry ∈ (Inputs.ofList [("x", 9)]).entries,
      entry.1 ∈ Graph.dividingGraph.vars := by decide
  have hlower : Graph.lower ["x"] Graph.dividing = .ok Graph.dividingGraph := by rfl
  have hsafe := freeReport_ne_crashed (Graph.sound_of_lower hlower).1 (.ofList [("x", 9)])
  have hcut := report_cut hinputs hsafe
  have hbefore : ∀ k < 5, (freeReport Graph.dividingGraph (.ofList [("x", 9)]) k).outcome =
      .unfinished := by decide +kernel
  have hfifth : (freeReport Graph.dividingGraph (.ofList [("x", 9)]) 5).outcome =
      .failed (.inBlock "while.body2" .divisionByZero) := by decide +kernel
  have hends : FreeEnds Graph.dividingGraph (.ofList [("x", 9)]) 5 :=
    ⟨by rw [hfifth]; decide, hbefore⟩
  -- It ends in no other block, and so not within the first four.
  have hlate : ∀ k, FreeEnds Graph.dividingGraph (.ofList [("x", 9)]) k → 5 ≤ k := by
    intro k hk
    by_contra hlt
    exact hk.1 (hbefore k (Nat.lt_of_not_le hlt))
  refine ⟨?_, ?_, ?_, by decide +kernel⟩
  · have hreport := (hcut 5 5).1 5 hends (Nat.le_refl 5) (.inr (Int.le_refl 5)) 10 (by decide)
    rw [hfifth] at hreport
    exact hreport
  · refine ((((hcut 5 3).2.1 ?_).1 (.inr (by decide))).2 10 (by decide)).1
    rintro ⟨k, hk, hle, _⟩
    have hge := hlate k hk
    omega
  · have hlong : ¬ ∃ k, FreeEnds Graph.dividingGraph (.ofList [("x", 9)]) k ∧ k ≤ 4 ∧
        Allows 3 k := by
      rintro ⟨k, hk, hle, _⟩
      have hge := hlate k hk
      omega
    obtain ⟨n, b, hn, _, hb, hreport⟩ := ((hcut 3 4).2.1 hlong).2 (by unfold Allows; omega)
    obtain rfl : n = 3 := by omega
    have hname : (freeBlock? Graph.dividingGraph (.ofList [("x", 9)]) 3).map Block.name =
        some "while.cond1" := by decide +kernel
    rw [hb] at hname
    have hthird := (hreport 10 (by decide)).1
    rw [Option.some.inj hname] at hthird
    exact hthird

end Machine

end BlockFlow
