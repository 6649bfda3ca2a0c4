import BlockFlow.Proofs.Dominance.Frontiers

/-!
# Loops that end

The sweeps for dominators, the climbs along immediate dominators and the search for an iterated
frontier are loops: a step is repeated until there is no next one.  The functions that carry them
out bound the number of steps in advance.  Here the loops are written without a bound (`Loops`), and
each is shown to end by itself, in the state at which the bounded function arrives.

What counts down is different each time.  A sweep that changes anything makes the entries of the
table shorter, whatever the lists of predecessors are (`loops_dominators`).  A step up the tree
leads to a block with fewer dominators (`loops_climb`), so that a climb comes to the immediate
dominator it is looking for, or leaves the tree at the entry.  A search queues no block twice, so
that fewer and fewer are left to be queued (`loops_iteratedFrontier`).
-/

namespace BlockFlow.Dominance

/-- Repeating a step passes the given states, in turn, and ends in a state that has no next one. -/
inductive Loops {σ : Type} (next : σ → Option σ) : (start : σ) → (passed : List σ) → (last : σ) →
    Prop where
  | stop {s : σ} (h : next s = none) : Loops next s [] s
  | step {s t last : σ} {passed : List σ} (h : next s = some t) (hrest : Loops next t passed last) :
      Loops next s (s :: passed) last

variable {preds table : Table} {b p y : Nat}

/-! ### Sweeps -/

/-- The table after another sweep, unless the sweep changes nothing. -/
def nextTable (preds table : Table) : Option Table :=
  if sweep preds table = table then none else some (sweep preds table)

theorem loops_settle (fuel : Nat) (h : Settling preds table) (hfuel : weight table < fuel) :
    ∃ passed, Loops (nextTable preds) table passed (settle preds fuel table) ∧
      ∀ t ∈ passed, Below (sweep preds t) t := by
  -- The weight of the table counts down with the bound, and faster.
  induction fuel generalizing table with
  | zero => omega
  | succ fuel ih =>
    unfold settle
    by_cases heq : sweep preds table = table
    · simp only [heq, if_true]
      exact ⟨[], .stop (if_pos heq), fun t ht => absurd ht List.not_mem_nil⟩
    · simp only [if_neg heq]
      obtain ⟨hsettling, hbelow⟩ := h.sweep
      have hweight := hbelow.weight_lt heq
      obtain ⟨passed, hloops, hshrinks⟩ := ih hsettling (by omega)
      exact ⟨table :: passed, .step (if_neg heq) hloops,
        List.forall_mem_cons.mpr ⟨hbelow, hshrinks⟩⟩

/-- **The sweeps end,** whatever the lists of predecessors are, and no sweep adds a block to the
dominators of another. -/
theorem loops_dominators (preds : Table) :
    ∃ passed, Loops (nextTable preds) (everything preds.size) passed (dominators preds) ∧
      ∀ t ∈ passed, Below (sweep preds t) t := by
  by_cases hsize : preds.size = 0
  · -- Without blocks a sweep has nothing to replace.
    have hsweep : ∀ t, sweep preds t = t := by
      intro t
      rw [sweep, hsize]
      rfl
    refine ⟨[], ?_, fun t ht => absurd ht List.not_mem_nil⟩
    have hdominators : dominators preds = everything preds.size := by
      rw [dominators, settle]
      exact if_pos (hsweep _)
    rw [hdominators]
    exact .stop (if_pos (hsweep _))
  · exact loops_settle _ (settling_everything (Nat.pos_of_ne_zero hsize))
      (Nat.lt_succ_of_le (weight_everything preds.size))

/-! ### Climbs -/

/-- Where a climb goes on.  It ends where it is to stop, and above the entry, where it has left the
tree. -/
def nextRunner (links : Links) (stop runner : Option Nat) : Option (Option Nat) :=
  if runner = none ∨ runner = stop then none else some (runner.bind links.of)

theorem loops_climb_of_dominates (hpreds : Connected preds) {stop : Option Nat}
    (hstop : ∀ d, stop = some d → Dominates preds d b) (hb : b < preds.size) {fuel : Nat}
    (hfuel : depth preds b ≤ fuel) :
    Loops (nextRunner (tree preds) stop) (some b)
      ((climb (tree preds) stop fuel b).map some) stop := by
  -- A step up the tree takes one from the bound and at least one from the depth.
  induction fuel generalizing b with
  | zero =>
    have hpos := depth_pos hpreds hb
    omega
  | succ fuel ih =>
    rw [climb]
    by_cases hhere : some b = stop
    · rw [if_pos hhere, ← hhere]
      exact .stop (if_pos (.inr rfl))
    · rw [if_neg hhere]
      have hnext : nextRunner (tree preds) stop (some b) = some ((tree preds).of b) :=
        if_neg (not_or.mpr ⟨Option.some_ne_none b, hhere⟩)
      by_cases h0 : b = 0
      · -- Only the entry dominates the entry, so nothing else could have been looked for.
        have hnone : stop = none := by
          cases hs : stop with
          | none => rfl
          | some d =>
            have hd := hstop d hs
            rw [h0, dominates_entry_iff] at hd
            exact absurd (by rw [hs, hd, h0]) hhere
        have hroot : (tree preds).of b = none := by
          rw [of_tree hb, h0]
          rfl
        rw [hroot] at hnext ⊢
        refine .step hnext ?_
        rw [hnone]
        exact .stop (if_pos (.inl rfl))
      · obtain ⟨up, hup, hidom⟩ := exists_idomOf hpreds hb h0
        rw [← of_tree hb] at hup
        rw [hup] at hnext ⊢
        have hlt := depth_lt_depth hpreds hb hidom.dominates hidom.ne
        refine .step hnext (ih (fun d hd => ?_) (hpreds.lt_of_dominates hb hidom.dominates)
          (by omega))
        refine hidom.closest d (hstop d hd) ?_
        rintro rfl
        exact hhere hd.symm

/-- **Every climb ends** at the immediate dominator of the block from whose predecessor it started;
where this is the entry, which has none, it leaves the tree. -/
theorem loops_climb (hpreds : Connected preds) (hp : p ∈ preds.of y) :
    Loops (nextRunner (tree preds) ((tree preds).of y)) (some p)
      ((climb (tree preds) ((tree preds).of y) (tree preds).size p).map some)
      ((tree preds).of y) := by
  have hplt := hpreds.lt_size hp
  refine loops_climb_of_dominates hpreds (fun d hd => ?_) hplt ?_
  · have hidom := (isIdom_of_of_tree hpreds hd).2
    exact hidom.dominates.of_pred (Ne.symm hidom.ne) hp
  · rw [size_tree]
    exact depth_le_size hpreds hplt

/-- A climb that leaves the tree has passed the entry, the only block without an immediate
dominator. -/
theorem Loops.passes_entry (hpreds : Connected preds) {stop runner last : Option Nat}
    {passed : List (Option Nat)} (h : Loops (nextRunner (tree preds) stop) runner passed last)
    (hlast : last = none) {b : Nat} (hrunner : runner = some b) (hb : b < preds.size) :
    some 0 ∈ passed := by
  induction h generalizing b with
  | stop _ => exact absurd (hlast.symm.trans hrunner) (Option.some_ne_none b).symm
  | step hnext _ ih =>
    by_cases h0 : b = 0
    · rw [hrunner, h0]
      exact List.mem_cons_self
    · obtain ⟨up, hup, hidom⟩ := exists_idomOf hpreds hb h0
      rw [nextRunner] at hnext
      split at hnext
      · cases hnext
      · refine List.mem_cons_of_mem _
          (ih hlast ?_ (hpreds.lt_of_dominates hb hidom.dominates))
        rw [← Option.some.inj hnext, hrunner, Option.bind_some, of_tree hb, hup]

/-! ### Searches -/

/-- The search after looking at another frontier, unless there is none left to look at. -/
def Spread.next (fronts : Table) (s : Spread) : Option Spread :=
  match s.work with
  | [] => none
  | b :: work => some ((fronts.of b).foldl note ⟨work, s.queued, s.found⟩)

theorem Spreading.loops {size : Nat} {done : List Nat} {s : Spread} {fronts : Table}
    (hfronts : ∀ b, ∀ y ∈ fronts.of b, y < size) (fuel : Nat) (h : Spreading size done s)
    (hfuel : size ≤ fuel + done.length) : ∃ passed last,
      Loops (Spread.next fronts) s passed last ∧ last.work = [] ∧
        last.found = s.run fronts fuel := by
  induction fuel generalizing s done with
  | zero =>
    -- As many blocks as there are have been looked at, so none is left to be.
    have hnodup := h.nodup
    rw [h.queued_eq] at hnodup
    have hwork : s.work = [] := by
      refine List.eq_nil_iff_forall_not_mem.mpr fun b hb => ?_
      have hdone : ∀ c ∈ done, c < size := fun c hc =>
        h.inRange c (by rw [h.queued_eq]; exact List.mem_append_left _ hc)
      have hrange : b < size :=
        h.inRange b (by rw [h.queued_eq]; exact List.mem_append_right _ hb)
      have hmem := mem_of_size_le_length hnodup.of_append_left hdone (by omega) hrange
      exact (List.nodup_append.mp hnodup).2.2 b hmem b hb rfl
    exact ⟨[], s, .stop (by rw [Spread.next, hwork]), hwork, rfl⟩
  | succ fuel ih =>
    unfold Spread.run
    cases hwork : s.work with
    | nil => exact ⟨[], s, .stop (by rw [Spread.next, hwork]), hwork, rfl⟩
    | cons c work =>
      have hnext : Spreading size (done ++ [c]) ⟨work, s.queued, s.found⟩ := by
        refine ⟨?_, h.nodup, h.inRange, h.found_queued⟩
        rw [h.queued_eq, hwork, List.append_assoc]
        rfl
      obtain ⟨hspreading, -, -⟩ := hnext.foldl_note (fronts.of c) (hfronts c)
      obtain ⟨passed, last, hloops, hlast, hfound⟩ := ih hspreading (by
        rw [List.length_append, List.length_singleton]
        omega)
      exact ⟨s :: passed, last, .step (by rw [Spread.next, hwork]) hloops, hlast, hfound⟩

/-- **The search for an iterated frontier ends,** with nothing left to look at. -/
theorem loops_iteratedFrontier {fronts : Table} {blocks : List Nat} (hnodup : blocks.Nodup)
    (hrange : ∀ b ∈ blocks, b < fronts.size) (hfronts : ∀ b, ∀ y ∈ fronts.of b, y < fronts.size) :
    ∃ passed last, Loops (Spread.next fronts) ⟨blocks, blocks, []⟩ passed last ∧ last.work = [] ∧
      last.found = iteratedFrontier fronts blocks := by
  have hstart : Spreading fronts.size [] ⟨blocks, blocks, []⟩ :=
    ⟨rfl, hnodup, hrange, fun _ hb => absurd hb List.not_mem_nil⟩
  exact hstart.loops hfronts _ (by simp)

end BlockFlow.Dominance
