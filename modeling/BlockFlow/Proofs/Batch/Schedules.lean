import BlockFlow.Proofs.Batch.Executor
import BlockFlow.Program.Run
import Mathlib.Algebra.Ring.Nat
import Mathlib.Data.List.Perm.Basic
import Mathlib.Tactic.ByContra

/-!
# Batches do not depend on the schedule

Whatever the order in which the processes of an executor move, they come to an end, and the batch
has the results that its jobs have one by one.

Three facts about single steps carry this.  A step neither loses nor doubles a job: what the workers
started, what waits in the channel and what the feeder has left are the jobs of the batch, in their
order (`Step.order`), and the results of the started jobs are on their way, in some order
(`Step.perm_output`).  A step keeps the processes in accord about which channel is closed and who is
gone (`Orderly.step`), and from that some process can always move.  And a step uses up some of the
work that is left (`Step.work_lt`).
-/

namespace BlockFlow

namespace Executor

variable {exec : Executor} {fuel : Nat} {inputs : List Inputs} {trace : List (Option Job)}
  {started : Option Job} {s s' : State}

/-! ### Closing the channels -/

/-- The processes are in accord about what is over. -/
structure Orderly (exec : Executor) (s : State) : Prop where
  length_workers : s.workers.length = exec.workers
  /-- The feeder closes the channel of the jobs when it goes. -/
  jobs_closed : s.jobs.closed = true ↔ s.feeder = .gone
  /-- The report waits from when the feeder makes it until the collector returns. -/
  reported : s.reported = true ↔ s.feeder.isHanding = false ∧ s.collector.hasReturned = false
  /-- No worker leaves while there are jobs. -/
  drained_of_hasLeft : ∀ w ∈ s.workers, w.hasLeft = true → s.jobs.Drained
  /-- The channel of the results is open while there are workers. -/
  gone_of_closed : s.results.closed = true → ∀ w ∈ s.workers, w = .gone
  /-- The collector goes on when it has all results. -/
  drained_of_collected : s.collector.isCollecting = false → s.results.Drained

namespace Orderly

theorem start (exec : Executor) (inputs : List Inputs) : Orderly exec (exec.start inputs) where
  length_workers := List.length_replicate
  jobs_closed := ⟨nofun, nofun⟩
  reported := ⟨nofun, nofun⟩
  drained_of_hasLeft w hw hleft := by
    rw [List.eq_of_mem_replicate hw] at hleft
    cases hleft
  gone_of_closed := nofun
  drained_of_collected := nofun

/-- There is a worker. -/
theorem exists_worker (h : Orderly exec s) : ∃ w, w ∈ s.workers := by
  have hpos := exec.workers_pos
  rw [← h.length_workers] at hpos
  exact List.exists_mem_of_length_pos hpos

/-- Once the channel of the results is closed, the feeder is gone. -/
theorem feeder_gone (h : Orderly exec s) (hclosed : s.results.closed = true) :
    s.feeder = .gone := by
  obtain ⟨w, hw⟩ := h.exists_worker
  have hgone := h.gone_of_closed hclosed w hw
  exact h.jobs_closed.mp (h.drained_of_hasLeft w hw (by rw [hgone]; rfl)).1

/-- While the feeder is there, the collector gathers results. -/
theorem isCollecting (h : Orderly exec s) (hfeeder : s.feeder ≠ .gone) :
    s.collector.isCollecting = true := by
  by_contra hcollector
  exact hfeeder (h.feeder_gone (h.drained_of_collected (Bool.eq_false_iff.mpr hcollector)).1)

/-- While the channel of the jobs is open, no worker leaves. -/
theorem hasLeft_ne_true (h : Orderly exec s) (hopen : s.jobs.closed = false) {w : Worker}
    (hw : w ∈ s.workers) : w.hasLeft ≠ true := by
  intro hleft
  have hclosed := (h.drained_of_hasLeft w hw hleft).1
  rw [hopen] at hclosed
  cases hclosed

theorem not_misused (h : Orderly exec s) : ¬ s.Misused := by
  rintro (⟨hfeeder, hclosed⟩ | ⟨⟨w, hw, hgone⟩, hclosed⟩)
  · exact hfeeder (h.jobs_closed.mp hclosed)
  · exact hgone (h.gone_of_closed hclosed w hw)

/-- A worker that is not gone may go on to something else, and leave only if there are no jobs. -/
theorem move (h : Orderly exec s) {before after : List Worker} {w w' : Worker}
    (hworker : s.workers = before ++ w :: after) (hw : w ≠ .gone) {jobs : Channel Job}
    {results : Channel JobResult} (hjobs : jobs.closed = s.jobs.closed)
    (hresults : results.closed = s.results.closed) (hdrained : s.jobs.Drained → jobs.Drained)
    (hleft : w'.hasLeft = true → jobs.Drained) :
    Orderly exec { s with jobs, results, workers := before ++ w' :: after } := by
  have hmem : w ∈ s.workers := by
    rw [hworker]
    exact List.mem_append_right _ List.mem_cons_self
  -- The worker is still there, so the results are not complete.
  have hopen : s.results.closed ≠ true := fun hclosed => hw (h.gone_of_closed hclosed w hmem)
  refine { h with
    length_workers := ?_, jobs_closed := ?_, drained_of_hasLeft := ?_, gone_of_closed := ?_
    drained_of_collected := ?_ }
  · have hlength := h.length_workers
    rw [hworker, List.length_append, List.length_cons] at hlength
    rwa [List.length_append, List.length_cons]
  · exact hjobs ▸ h.jobs_closed
  · intro w'' hw'' hleft''
    have hothers : w'' = w' ∨ w'' ∈ s.workers := by
      rw [hworker]
      simp only [List.mem_append, List.mem_cons] at hw'' ⊢
      tauto
    rcases hothers with rfl | hothers
    · exact hleft hleft''
    · exact hdrained (h.drained_of_hasLeft w'' hothers hleft'')
  · intro hclosed
    exact absurd (hresults ▸ hclosed) hopen
  · intro hcollector
    exact absurd (h.drained_of_collected hcollector).1 hopen

/-- **Every step keeps the processes in accord.** -/
theorem step (h : Orderly exec s) (hstep : exec.Step started s s') : Orderly exec s' := by
  cases hstep with
  | hand hfeeder hroom =>
    refine { h with jobs_closed := ?_, reported := ?_, drained_of_hasLeft := ?_ }
    · rw [hroom.1]
      exact ⟨nofun, nofun⟩
    · have hreported := h.reported
      rwa [hfeeder] at hreported
    · intro w hw hleft
      exact absurd hleft (h.hasLeft_ne_true hroom.1 hw)
  | report hfeeder hroom =>
    have hthere : s.feeder ≠ .gone := by
      rw [hfeeder]
      nofun
    refine { h with jobs_closed := ?_, reported := ?_ }
    · exact ⟨fun hclosed => absurd (h.jobs_closed.mp hclosed) hthere, nofun⟩
    · -- The collector waits for the workers, which wait for the feeder.
      have hcollecting := h.isCollecting hthere
      refine ⟨fun _ => ⟨rfl, ?_⟩, fun _ => rfl⟩
      show s.collector.hasReturned = false
      cases hcollector : s.collector with
      | returned results =>
        rw [hcollector] at hcollecting
        cases hcollecting
      | _ => rfl
  | close hfeeder hopen =>
    refine { h with
      jobs_closed := ⟨fun _ => rfl, fun _ => rfl⟩, reported := ?_, drained_of_hasLeft := ?_ }
    · have hreported := h.reported
      rwa [hfeeder] at hreported
    · intro w hw hleft
      exact absurd hleft (h.hasLeft_ne_true hopen hw)
  | take hworker hjobs =>
    refine h.move hworker nofun rfl rfl (fun hdrained => ?_) nofun
    rw [hdrained.2] at hjobs
    cases hjobs
  | compute hworker hrun => exact h.move hworker nofun rfl rfl id nofun
  | finish hworker hrun => exact h.move hworker nofun rfl rfl id nofun
  | deliver hworker hroom => exact h.move hworker nofun rfl rfl id nofun
  | leave hworker hjobs => exact h.move hworker nofun rfl rfl id fun _ => hjobs
  | depart hworker =>
    refine h.move hworker nofun rfl rfl id fun _ => h.drained_of_hasLeft .leaving ?_ rfl
    rw [hworker]
    exact List.mem_append_right _ List.mem_cons_self
  | closeResults hworkers hopen =>
    refine { h with gone_of_closed := fun _ => hworkers, drained_of_collected := ?_ }
    exact fun hcollector => ⟨rfl, (h.drained_of_collected hcollector).2⟩
  | collect hcollector hresults =>
    refine { h with reported := ?_, drained_of_collected := nofun }
    have hreported := h.reported
    rwa [hcollector] at hreported
  | drain hcollector hresults =>
    refine { h with reported := ?_, drained_of_collected := fun _ => hresults }
    have hreported := h.reported
    rwa [hcollector] at hreported
  | settle hcollector hreport hperm hsorted =>
    refine { h with reported := ⟨nofun, nofun⟩, drained_of_collected := fun _ => ?_ }
    exact h.drained_of_collected (by rw [hcollector]; rfl)

end Orderly

/-! ### Jobs and their results -/

/-- The result that a worker owes, if each run is given the same number of blocks. -/
def owed (exec : Executor) (fuel : Nat) : Worker → List JobResult
  | .running job _ => [exec.result fuel job]
  | .delivering result => [result]
  | _ => []

/-- The results of all jobs that were started. -/
def output (exec : Executor) (fuel : Nat) (s : State) : List JobResult :=
  s.workers.flatMap (exec.owed fuel) ++ s.results.queue ++ s.collector.received

/-- The number of blocks suffices for the job that a worker runs. -/
def Suffices (exec : Executor) (fuel : Nat) : Worker → Prop
  | .running job _ => (exec.result fuel job).outcome.Ended
  | _ => True

/-- A bound for the steps that are left for the feeder, and for the jobs it has left: of these each
is handed out, taken, run, delivered and collected. -/
def feederWork (fuel : Nat) : Feeder → Nat
  | .handing rest => rest.length * (fuel + 5) + 2
  | .closing => 1
  | .gone => 0

/-- A bound for the steps that are left for a worker, and for the job it holds. -/
def workerWork (fuel : Nat) : Worker → Nat
  | .waiting => 2
  | .running _ blocks => fuel - blocks + 5
  | .delivering _ => 4
  | .leaving => 1
  | .gone => 0

/-- The steps that are left for the collector, besides receiving. -/
def collectorWork : Collector → Nat
  | .collecting _ => 2
  | .settling _ => 1
  | .returned _ => 0

/-- A bound for the number of steps that are left, if a number of blocks suffices for each job. -/
def work (fuel : Nat) (s : State) : Nat :=
  feederWork fuel s.feeder + s.jobs.queue.length * (fuel + 4) +
    (s.workers.map (workerWork fuel)).sum + s.results.queue.length +
    (if s.results.closed then 0 else 1) + collectorWork s.collector

theorem result_eq {job : Job} {blocks : Nat} (h : (exec.result fuel job).outcome.Ended)
    (h' : (exec.result blocks job).outcome ≠ .unfinished) :
    exec.result blocks job = exec.result fuel job := by
  have hrun := Machine.run_eq_of_ne_unfinished h.1 h'
  unfold result JobResult.ofInputs
  rw [hrun]

/-- What becomes of the output when a worker goes on to something else. -/
theorem perm_output_move {before after : List Worker} {w w' : Worker} {jobs : Channel Job}
    {results : Channel JobResult} {new : List JobResult}
    (hworker : s.workers = before ++ w :: after)
    (h : (new ++ exec.owed fuel w ++ s.results.queue).Perm (exec.owed fuel w' ++ results.queue)) :
    (new ++ exec.output fuel s).Perm
      (exec.output fuel { s with jobs, results, workers := before ++ w' :: after }) := by
  refine List.perm_iff_count.mpr fun r => ?_
  have hcount := h.count_eq r
  simp only [List.count_append] at hcount
  simp only [output, hworker, List.flatMap_append, List.flatMap_cons, List.count_append]
  omega

/-- What becomes of the work when a worker goes on to something else. -/
theorem work_move_lt {before after : List Worker} {w w' : Worker} {jobs : Channel Job}
    {results : Channel JobResult} (hworker : s.workers = before ++ w :: after)
    (hclosed : results.closed = s.results.closed)
    (h : jobs.queue.length * (fuel + 4) + workerWork fuel w' + results.queue.length <
      s.jobs.queue.length * (fuel + 4) + workerWork fuel w + s.results.queue.length) :
    work fuel { s with jobs, results, workers := before ++ w' :: after } < work fuel s := by
  simp only [work, hworker, hclosed, List.map_append, List.map_cons, List.sum_append, List.sum_cons]
  omega

namespace Step

/-- **Jobs are started in the order of the batch.** -/
theorem order (hstep : exec.Step started s s') :
    started.toList ++ (s'.jobs.queue ++ s'.feeder.rest) = s.jobs.queue ++ s.feeder.rest := by
  cases hstep with
  | hand hfeeder hroom => simp [hfeeder, Feeder.rest]
  | report hfeeder hroom => simp [hfeeder, Feeder.rest]
  | close hfeeder hopen => simp [hfeeder, Feeder.rest]
  | take hworker hjobs => simp [hjobs]
  | _ => rfl

/-- A number of blocks that suffices goes on to do so, if it suffices for a job that is started. -/
theorem suffices_of (hstep : exec.Step started s s') (h : ∀ w ∈ s.workers, exec.Suffices fuel w)
    (hstarted : ∀ job ∈ started, (exec.result fuel job).outcome.Ended) :
    ∀ w ∈ s'.workers, exec.Suffices fuel w := by
  have hmove : ∀ {before after : List Worker} {w w' : Worker},
      s.workers = before ++ w :: after → (exec.Suffices fuel w → exec.Suffices fuel w') →
        ∀ w ∈ before ++ w' :: after, exec.Suffices fuel w := by
    intro before after w w' hworker hw
    rw [hworker, List.forall_mem_append, List.forall_mem_cons] at h
    rw [List.forall_mem_append, List.forall_mem_cons]
    exact ⟨h.1, hw h.2.1, h.2.2⟩
  cases hstep with
  | take hworker hjobs => exact hmove hworker fun _ => hstarted _ rfl
  | compute hworker hrun => exact hmove hworker id
  | finish hworker hrun => exact hmove hworker fun _ => trivial
  | deliver hworker hroom => exact hmove hworker fun _ => trivial
  | leave hworker hjobs => exact hmove hworker fun _ => trivial
  | depart hworker => exact hmove hworker fun _ => trivial
  | _ => exact h

/-- **No result is lost or doubled.** -/
theorem perm_output (hstep : exec.Step started s s') (h : ∀ w ∈ s.workers, exec.Suffices fuel w) :
    (started.toList.map (exec.result fuel) ++ exec.output fuel s).Perm (exec.output fuel s') := by
  cases hstep with
  | take hworker hjobs => exact perm_output_move hworker (.refl _)
  | compute hworker hrun => exact perm_output_move hworker (.refl _)
  | @finish _ _ _ job blocks hworker hrun =>
    have henough : exec.Suffices fuel (.running job blocks) := h _ (by simp [hworker])
    rw [result_eq henough hrun.1]
    exact perm_output_move hworker (.refl _)
  | deliver hworker hroom => exact perm_output_move hworker List.perm_append_comm
  | leave hworker hjobs => exact perm_output_move hworker (.refl _)
  | depart hworker => exact perm_output_move hworker (.refl _)
  | collect hcollector hresults =>
    unfold output
    rw [hcollector, hresults]
    simp only [Option.toList_none, List.map_nil, List.nil_append, List.append_assoc,
      Collector.received]
    refine List.Perm.append_left _ ?_
    rw [← List.append_assoc]
    exact (List.perm_append_singleton _ _).symm
  | drain hcollector hresults =>
    unfold output
    rw [hcollector]
    rfl
  | settle hcollector hreport hperm hsorted =>
    unfold output
    rw [hcollector]
    exact hperm.symm.append_left _
  | _ => rfl

/-- **Every step uses up work.** -/
theorem work_lt (hstep : exec.Step started s s') (h : ∀ w ∈ s.workers, exec.Suffices fuel w) :
    work fuel s' < work fuel s := by
  cases hstep with
  | hand hfeeder hroom =>
    simp only [work, feederWork, hfeeder, List.length_append, List.length_cons, List.length_nil,
      Nat.add_mul]
    omega
  | report hfeeder hroom =>
    simp only [work, feederWork, hfeeder]
    omega
  | close hfeeder hopen =>
    simp only [work, feederWork, hfeeder]
    omega
  | take hworker hjobs =>
    refine work_move_lt hworker rfl ?_
    simp only [hjobs, workerWork, List.length_cons, Nat.add_mul]
    omega
  | @compute _ _ _ job blocks hworker hrun =>
    have henough : exec.Suffices fuel (.running job blocks) := h _ (by simp [hworker])
    have hlt : blocks < fuel := Machine.lt_of_unfinished henough.1 hrun
    refine work_move_lt hworker rfl ?_
    simp only [workerWork]
    omega
  | finish hworker hrun =>
    refine work_move_lt hworker rfl ?_
    simp only [workerWork]
    omega
  | deliver hworker hroom =>
    refine work_move_lt hworker rfl ?_
    simp only [workerWork, List.length_append, List.length_singleton]
    omega
  | leave hworker hjobs =>
    refine work_move_lt hworker rfl ?_
    simp only [workerWork]
    omega
  | depart hworker =>
    refine work_move_lt hworker rfl ?_
    simp only [workerWork]
    omega
  | closeResults hworkers hopen =>
    simp only [work, hopen, ↓reduceIte, Bool.false_eq_true]
    omega
  | collect hcollector hresults =>
    simp only [work, collectorWork, hcollector, hresults, List.length_cons]
    omega
  | drain hcollector hresults =>
    simp only [work, collectorWork, hcollector]
    omega
  | settle hcollector hreport hperm hsorted =>
    simp only [work, collectorWork, hcollector]
    omega

/-- The collector sorts what it returns. -/
theorem sorted (hstep : exec.Step started s s')
    (h : ∀ results, s.collector = .returned results → results.Pairwise (·.job ≤ ·.job)) :
    ∀ results, s'.collector = .returned results → results.Pairwise (·.job ≤ ·.job) := by
  cases hstep with
  | collect hcollector hresults => nofun
  | drain hcollector hresults => nofun
  | settle hcollector hreport hperm hsorted =>
    intro results heq
    cases heq
    exact hsorted
  | _ => exact h

end Step

/-! ### Whole runs -/

/-- What holds whenever an executor has come to a state, if a number of blocks suffices for each
job. -/
structure Sound (exec : Executor) (fuel : Nat) (inputs : List Inputs) (trace : List (Option Job))
    (s : State) : Prop extends Orderly exec s where
  enough : ∀ w ∈ s.workers, exec.Suffices fuel w
  order : trace.reduceOption ++ (s.jobs.queue ++ s.feeder.rest) = jobsOf inputs
  perm_output : (trace.reduceOption.map (exec.result fuel)).Perm (exec.output fuel s)
  sorted : ∀ results, s.collector = .returned results → results.Pairwise (·.job ≤ ·.job)
  length_le : trace.length + work fuel s ≤ work fuel (exec.start inputs)

theorem inputs_mem_of_mem_jobsOf {job : Job} (h : job ∈ jobsOf inputs) : job.inputs ∈ inputs := by
  obtain ⟨⟨values, number⟩, hmem, rfl⟩ := List.mem_map.mp h
  exact List.fst_mem_of_mem_zipIdx hmem

theorem map_result_jobsOf (exec : Executor) (fuel : Nat) (inputs : List Inputs) :
    (jobsOf inputs).map (exec.result fuel) = runBatch fuel exec.graph exec.limit inputs := by
  rw [jobsOf, List.map_map]
  rfl

theorem sound_start : Sound exec fuel inputs [] (exec.start inputs) where
  toOrderly := .start exec inputs
  enough w hw := by
    rw [List.eq_of_mem_replicate hw]
    trivial
  order := rfl
  perm_output := by
    have howed : ∀ n, (List.replicate n Worker.waiting).flatMap (exec.owed fuel) = [] := by
      intro n
      refine List.flatMap_eq_nil_iff.mpr fun w hw => ?_
      rw [List.eq_of_mem_replicate hw]
      rfl
    rw [output, start, howed]
    exact .refl _
  sorted := nofun
  length_le := Nat.le_of_eq (Nat.zero_add _)

/-- **What holds in all states that an executor comes to.** -/
theorem Run.sound (hrun : exec.Run inputs trace s) (hends : ∀ values ∈ inputs,
    ((Machine.new exec.graph exec.limit values).run fuel none).1.Ended) :
    Sound exec fuel inputs trace s := by
  induction hrun with
  | start => exact sound_start
  | @step trace s s' started hrun hstep ih =>
    have horder := ih.order
    rw [← hstep.order] at horder
    have htrace : (trace ++ [started]).reduceOption = trace.reduceOption ++ started.toList := by
      rw [List.reduceOption_append]
      cases started <;> rfl
    have hstarted : ∀ job ∈ started, (exec.result fuel job).outcome.Ended := by
      intro job hjob
      refine hends job.inputs (inputs_mem_of_mem_jobsOf ?_)
      rw [← horder]
      simp [Option.mem_def.mp hjob]
    refine ⟨ih.toOrderly.step hstep, hstep.suffices_of ih.enough hstarted, ?_, ?_,
      hstep.sorted ih.sorted, ?_⟩
    · rw [htrace, List.append_assoc]
      exact horder
    · rw [htrace, List.map_append]
      exact List.perm_append_comm.trans
        ((ih.perm_output.append_left _).trans (hstep.perm_output ih.enough))
    · have hlt := hstep.work_lt ih.enough
      have hle := ih.length_le
      rw [List.length_append, List.length_singleton]
      omega

namespace Sound

/-- **When the batch is done,** every job was started once, and the results are those of the
jobs. -/
theorem returned_eq (h : Sound exec fuel inputs trace s) {results : List JobResult}
    (hreturned : s.collector = .returned results) : trace.reduceOption = jobsOf inputs ∧
      results = runBatch fuel exec.graph exec.limit inputs := by
  obtain ⟨hclosed, hqueue⟩ := h.drained_of_collected (by rw [hreturned]; rfl)
  have hgone := h.gone_of_closed hclosed
  have hdrained : s.jobs.Drained := by
    obtain ⟨w, hw⟩ := h.exists_worker
    exact h.drained_of_hasLeft w hw (by rw [hgone w hw]; rfl)
  have horder := h.order
  rw [hdrained.2, h.feeder_gone hclosed] at horder
  have hstarted : trace.reduceOption = jobsOf inputs := by simpa [Feeder.rest] using horder
  have howed : s.workers.flatMap (exec.owed fuel) = [] := by
    refine List.flatMap_eq_nil_iff.mpr fun w hw => ?_
    rw [hgone w hw]
    rfl
  have hperm := h.perm_output
  rw [output, howed, hqueue, hreturned, hstarted, map_result_jobsOf] at hperm
  refine ⟨hstarted, List.Perm.eq_of_pairwise ?_ (h.sorted results hreturned) ?_ hperm.symm⟩
  · -- Results of one job are the same result.
    intro a b ha hb hab hba
    have hplace := getElem?_job_of_mem_runBatch (hperm.mem_iff.mpr ha)
    rw [Nat.le_antisymm hab hba, getElem?_job_of_mem_runBatch hb] at hplace
    exact (Option.some.inj hplace).symm
  · exact (pairwise_runBatch _ _ _ _).imp Nat.le_of_lt

end Sound

/-! ### Some process can move -/

theorem exists_perm_sorted (received : List JobResult) :
    ∃ results : List JobResult, results.Perm received ∧ results.Pairwise (·.job ≤ ·.job) := by
  have hsorted := @List.pairwise_mergeSort _ (fun a b : JobResult => decide (a.job ≤ b.job))
    (fun a b c hab hbc => decide_eq_true
      (Nat.le_trans (of_decide_eq_true hab) (of_decide_eq_true hbc)))
    (fun a b => by simpa using Nat.le_total a.job b.job) received
  exact ⟨_, List.mergeSort_perm _ _, hsorted.imp of_decide_eq_true⟩

/-- As long as its channel is empty and open, the feeder can move. -/
theorem Orderly.exists_step_of_feeder (h : Orderly exec s) (hopen : s.jobs.closed = false)
    (hempty : s.jobs.queue = []) : ∃ started s', exec.Step started s s' := by
  cases hfeeder : s.feeder with
  | handing rest =>
    cases rest with
    | nil =>
      refine ⟨_, _, .report hfeeder (Bool.eq_false_iff.mpr fun hreported => ?_)⟩
      have hhanding := (h.reported.mp hreported).1
      rw [hfeeder] at hhanding
      cases hhanding
    | cons job rest =>
      refine ⟨_, _, .hand hfeeder ⟨hopen, ?_⟩⟩
      rw [hempty]
      exact exec.capacity_pos
  | closing => exact ⟨_, _, .close hfeeder hopen⟩
  | gone =>
    rw [h.jobs_closed.mpr hfeeder] at hopen
    cases hopen

namespace Sound

/-- As long as there is a worker, and room for results, the worker can move or the feeder can. -/
theorem exists_step_of_worker (h : Sound exec fuel inputs trace s) {w : Worker}
    (hw : w ∈ s.workers) (hgone : w ≠ .gone) (hroom : s.results.Accepts exec.capacity) :
    ∃ started s', exec.Step started s s' := by
  obtain ⟨before, after, hworker⟩ := List.append_of_mem hw
  cases w with
  | waiting =>
    cases hjobs : s.jobs.queue with
    | cons job queue => exact ⟨_, _, .take hworker hjobs⟩
    | nil =>
      cases hclosed : s.jobs.closed with
      | true => exact ⟨_, _, .leave hworker ⟨hclosed, hjobs⟩⟩
      | false => exact h.exists_step_of_feeder hclosed hjobs
  | running job blocks =>
    have henough : (exec.result fuel job).outcome.Ended := h.enough _ hw
    by_cases hrun : (exec.result blocks job).outcome = .unfinished
    · exact ⟨_, _, .compute hworker hrun⟩
    · refine ⟨_, _, .finish hworker ?_⟩
      rw [result_eq henough hrun]
      exact henough
  | delivering result => exact ⟨_, _, .deliver hworker hroom⟩
  | leaving => exact ⟨_, _, .depart hworker⟩
  | gone => exact absurd rfl hgone

/-- **As long as the batch is not done, some process can move.** -/
theorem exists_step (h : Sound exec fuel inputs trace s)
    (hreturned : s.collector.hasReturned = false) : ∃ started s', exec.Step started s s' := by
  cases hcollector : s.collector with
  | returned results =>
    rw [hcollector] at hreturned
    cases hreturned
  | settling received =>
    have hclosed := (h.drained_of_collected (by rw [hcollector]; rfl)).1
    have hreported : s.reported = true := by
      refine h.reported.mpr ⟨?_, hreturned⟩
      rw [h.feeder_gone hclosed]
      rfl
    obtain ⟨results, hperm, hsorted⟩ := exists_perm_sorted received
    exact ⟨_, _, .settle hcollector hreported hperm hsorted⟩
  | collecting received =>
    cases hresults : s.results.queue with
    | cons result queue => exact ⟨_, _, .collect hcollector hresults⟩
    | nil =>
      cases hclosed : s.results.closed with
      | true => exact ⟨_, _, .drain hcollector ⟨hclosed, hresults⟩⟩
      | false =>
        by_cases hworkers : ∀ w ∈ s.workers, w = .gone
        · exact ⟨_, _, .closeResults hworkers hclosed⟩
        · push Not at hworkers
          obtain ⟨w, hw, hgone⟩ := hworkers
          refine h.exists_step_of_worker hw hgone ⟨hclosed, ?_⟩
          rw [hresults]
          exact exec.capacity_pos

end Sound

end Executor

/-! ### Batches of programs -/

namespace Program

variable {p : Program} {graph : Graph}

theorem exists_run (hgraph : p.graph? = some graph) (settings : Settings) :
    ∃ report, p.run settings none = some report ∧ report.outcome = ((Machine.new graph
      settings.withDefaults.stepLimit settings.inputs).run Machine.enough none).1 := by
  rw [run, hgraph]
  exact ⟨_, rfl, rfl⟩

theorem exists_runBatch (hgraph : p.graph? = some graph) (settings : Settings)
    (inputs : List Inputs) :
    ∃ report, p.runBatch settings inputs = some report ∧ report.results =
      BlockFlow.runBatch Machine.enough graph settings.withDefaults.stepLimit inputs := by
  rw [runBatch, hgraph]
  exact ⟨_, rfl, rfl⟩

end Program

namespace Executor

variable {exec : Executor} {fuel : Nat} {inputs : List Inputs} {trace : List (Option Job)}
  {s : State}

/-- When an executor is done, it has returned the results of a batch whose jobs all end. -/
theorem Run.returned_eq_runBatch {results : List JobResult} (hrun : exec.Run inputs trace s)
    (hreturned : s.collector = .returned results)
    (hended : ∀ r ∈ runBatch fuel exec.graph exec.limit inputs, r.outcome.Ended) :
    results = runBatch fuel exec.graph exec.limit inputs :=
  ((hrun.sound (ended_run_of_runBatch hended)).returned_eq hreturned).2

/-- **What an executor returns is the report of the batch.**  Take the executor that the settings
ask for, on a computer with any number of processors.  However it schedules its workers, when it is
done it has returned the results that are reported for the program, provided that its runs end. -/
theorem Run.returned_eq_results {p : Program} {settings : Settings} {report : BatchReport}
    {graph : Graph} {processors : Nat} {hprocessors : 0 < processors} {results : List JobResult}
    (hgraph : p.graph? = some graph) (hreport : p.runBatch settings inputs = some report)
    (hended : ∀ r ∈ report.results, r.outcome.Ended)
    (hrun : (ofSettings graph settings processors hprocessors).Run inputs trace s)
    (hreturned : s.collector = .returned results) : results = report.results := by
  obtain ⟨report', hreport', hresults⟩ := Program.exists_runBatch hgraph settings inputs
  obtain rfl : report' = report := Option.some.inj (hreport'.symm.trans hreport)
  rw [hresults] at hended ⊢
  exact hrun.returned_eq_runBatch hreturned hended

/-- **A batch does not depend on the schedule.**  If the run of each job ends by itself, then in
whatever order the feeder, the workers and the collector move: when the batch is done, it has one
result for each of the inputs, in their order, which is the result of a run with these inputs alone,
and each job was started once; until then some process can move, and none uses a channel that is
closed; and there is a bound for the number of moves.

A batch of a program has these results, too: they are what the executor returns, unless a job is
not carried to its end, and each job ends as a run of the program with the inputs of the job
does. -/
theorem run_schedule_independent (exec : Executor) (inputs : List Inputs)
    (hends : ∀ values ∈ inputs, ∃ outcome steps,
      (Machine.new exec.graph exec.limit values).EndsWith outcome steps) :
    (∀ trace s, exec.Run inputs trace s →
      (∀ results, s.collector = .returned results →
        results.length = inputs.length ∧ trace.reduceOption = jobsOf inputs ∧
        (∀ (i : Nat) (values : Inputs), inputs[i]? = some values →
          ∃ r, results[i]? = some r ∧ r.job = i ∧
            (Machine.new exec.graph exec.limit values).EndsWith r.outcome r.steps) ∧
        ∀ fuel, (∀ r ∈ runBatch fuel exec.graph exec.limit inputs, r.outcome.Ended) →
          results = runBatch fuel exec.graph exec.limit inputs) ∧
      (s.collector.hasReturned = false → ∃ started s', exec.Step started s s') ∧ ¬ s.Misused) ∧
    (∃ bound, ∀ trace s, exec.Run inputs trace s → trace.length ≤ bound) ∧
    ∀ (p : Program) (settings : Settings), p.graph? = some exec.graph →
      settings.withDefaults.stepLimit = exec.limit →
      ∃ report, p.runBatch settings inputs = some report ∧
        report.results = runBatch Machine.enough exec.graph exec.limit inputs ∧
        report.results.length = inputs.length ∧
        ((∀ r ∈ report.results, r.outcome.Ended) → ∀ trace s results, exec.Run inputs trace s →
          s.collector = .returned results → results = report.results) ∧
        ∀ (i : Nat) (values : Inputs), inputs[i]? = some values →
          ∃ r run, report.results[i]? = some r ∧
            p.run { settings with inputs := values } none = some run ∧ r.outcome = run.outcome := by
  obtain ⟨fuel, hfuel⟩ := Machine.exists_ended_run hends
  refine ⟨fun trace s hrun => ?_, ⟨work fuel (exec.start inputs), fun trace s hrun => ?_⟩,
    fun p settings hgraph hlimit => ?_⟩
  · have hsound := hrun.sound hfuel
    refine ⟨fun results hreturned => ?_, hsound.exists_step, hsound.not_misused⟩
    obtain ⟨hstarted, hresults⟩ := hsound.returned_eq hreturned
    refine ⟨?_, hstarted, fun i values hvalues => ?_, fun fuel' hended => ?_⟩
    · rw [hresults, length_runBatch]
    · refine ⟨.ofInputs fuel exec.graph exec.limit i values, ?_, rfl, ?_⟩
      · rw [hresults, getElem?_runBatch, hvalues]
        rfl
      · exact ⟨hfuel values (List.mem_of_getElem? hvalues), fuel, rfl, rfl⟩
    · exact hrun.returned_eq_runBatch hreturned hended
  · have hle := (hrun.sound hfuel).length_le
    omega
  · obtain ⟨report, hreport, hresults⟩ := Program.exists_runBatch hgraph settings inputs
    rw [hlimit] at hresults
    refine ⟨report, hreport, hresults, ?_, fun hended trace s results hrun hreturned => ?_,
      fun i values hvalues => ?_⟩
    · rw [hresults, length_runBatch]
    · rw [hresults] at hended ⊢
      exact hrun.returned_eq_runBatch hreturned hended
    · obtain ⟨run, hrun, houtcome⟩ :=
        Program.exists_run hgraph { settings with inputs := values }
      refine ⟨.ofInputs Machine.enough exec.graph exec.limit i values, run, ?_, hrun, ?_⟩
      · rw [hresults, getElem?_runBatch, hvalues]
        rfl
      · rw [houtcome, ← hlimit]
        rfl

/-- Two workers, with room for one value in a channel, that count `n` down, divide 12 by `d`, and
give up at the seventh block. -/
def dividing : Executor where
  graph := {
    vars := ["n", "d"]
    blocks := #[
      ⟨0, "entry", [], some (.jump 1), []⟩,
      ⟨1, "test", [], some (.branch (.load "n") 2 3), [0, 2]⟩,
      ⟨2, "body", [⟨"n", .binary .sub (.load "n") (.const 1)⟩], some (.jump 1), [1]⟩,
      ⟨3, "end", [], some (.ret (.binary .div (.const 12) (.load "d"))), [1]⟩] }
  limit := 6
  workers := 2
  capacity := 1
  workers_pos := by decide
  capacity_pos := by decide

/-- Inputs for `dividing`. -/
def divisions : List Inputs :=
  [.ofList [("n", 2), ("d", 4)], .ofList [("n", 1), ("d", 4)], .ofList [], .ofList [("x", 1)]]

/-- What the jobs come to: a limit, a value, a division by zero and a foreign name. -/
def quotients : List JobResult :=
  [⟨0, .failed (.stepLimit "end3" 6), 7⟩, ⟨1, .finished 3, 5⟩,
    ⟨2, .failed (.inBlock "end3" .divisionByZero), 3⟩, ⟨3, .failed (.unknownInput "x"), 0⟩]

theorem runBatch_divisions :
    runBatch 8 dividing.graph dividing.limit divisions = quotients := by
  decide +kernel

/-- The four jobs have the same results whichever of the two workers is faster. -/
theorem run_dividing :
    (∀ values ∈ divisions, ∃ outcome steps,
      (Machine.new dividing.graph dividing.limit values).EndsWith outcome steps) ∧
    ∀ trace s, dividing.Run divisions trace s →
      (∀ results, s.collector = .returned results → results = quotients) ∧
      (s.collector.hasReturned = false → ∃ started s', dividing.Step started s s') := by
  have hended : ∀ r ∈ runBatch 8 dividing.graph dividing.limit divisions, r.outcome.Ended := by
    rw [runBatch_divisions]
    decide
  have hends : ∀ values ∈ divisions, ∃ outcome steps,
      (Machine.new dividing.graph dividing.limit values).EndsWith outcome steps :=
    fun values hvalues => ⟨_, _, ended_run_of_runBatch hended values hvalues, 8, rfl, rfl⟩
  refine ⟨hends, fun trace s hrun => ?_⟩
  obtain ⟨hreturned, hstep, -⟩ := (run_schedule_independent dividing divisions hends).1 trace s hrun
  refine ⟨fun results hresults => ?_, hstep⟩
  rw [(hreturned results hresults).2.2.2 8 hended, runBatch_divisions]

end Executor

end BlockFlow
