import BlockFlow.Proofs.Lowering.Stages

/-!
# Variables by name

The machine keeps its variables in numbered slots.  On a graph that speaks of its own variables only
(`Graph.Closed`) the slots are a detail: they hold the values of an assignment to names
(`Machine.Holds`), reading and storing go by name, and a run without a limit that nobody cancels is
the repetition of `Graph.blockStep` (`Machine.shows_run`).
-/

namespace BlockFlow

namespace Machine

/-! ### Slots -/

variable {names : List String}

/-- The slot of a variable is one of its places. -/
theorem getElem?_of_lookup_slotsOf {name : String} {i : Nat}
    (h : (slotsOf names).lookup name = some i) : names[i]? = some name := by
  obtain ⟨before, after, heq, -⟩ := List.lookup_eq_some_iff.mp h
  have hmem : (name, i) ∈ slotsOf names := by
    rw [heq]
    exact List.mem_append_right _ List.mem_cons_self
  rwa [slotsOf, List.mem_reverse, List.mk_mem_zipIdx_iff_getElem?] at hmem

theorem exists_lookup_slotsOf {name : String} (h : name ∈ names) :
    ∃ i, (slotsOf names).lookup name = some i := by
  rw [← Option.ne_none_iff_exists']
  intro hnone
  obtain ⟨i, hi⟩ := List.mem_iff_getElem?.mp h
  have hmem : (name, i) ∈ slotsOf names := by
    rwa [slotsOf, List.mem_reverse, List.mk_mem_zipIdx_iff_getElem?]
  have := List.lookup_eq_none_iff.mp hnone _ hmem
  simp at this

theorem lookup_slotsOf_eq_none {name : String} (h : name ∉ names) :
    (slotsOf names).lookup name = none := by
  cases hlookup : (slotsOf names).lookup name with
  | none => rfl
  | some i => exact absurd (List.mem_iff_getElem?.mpr ⟨i, getElem?_of_lookup_slotsOf hlookup⟩) h

/-! ### Assignments to names -/

/-- The slots of the variables hold the values that an assignment gives them. -/
structure Holds (names : List String) (vars : Array Int64) (env : Env) : Prop where
  /-- There is a slot for each place. -/
  size_eq : vars.size = names.length
  /-- The slot of a variable holds its value. -/
  value_eq : ∀ name i, (slotsOf names).lookup name = some i → vars[i]? = some (env name)

variable {vars : Array Int64} {env : Env}

theorem Holds.readSlot (h : Holds names vars env) {name : String} (hname : name ∈ names) :
    readSlot (slotsOf names) vars name = .ok (env name) := by
  obtain ⟨i, hi⟩ := exists_lookup_slotsOf hname
  simp only [Machine.readSlot, hi, h.value_eq name i hi]

/-- Storing a value in the slot of a variable changes that variable and no other. -/
theorem Holds.set (h : Holds names vars env) {name : String} {i : Nat}
    (hi : (slotsOf names).lookup name = some i) (value : Int64) :
    i < vars.size ∧ Holds names (vars.setIfInBounds i value) (Function.update env name value) := by
  have hplace := getElem?_of_lookup_slotsOf hi
  have hlt : i < vars.size := by
    rw [h.size_eq]
    exact (List.getElem?_eq_some_iff.mp hplace).1
  refine ⟨hlt, by rw [Array.size_setIfInBounds, h.size_eq], fun other j hj => ?_⟩
  rw [Array.getElem?_setIfInBounds]
  by_cases hij : i = j
  · -- Two names in one slot are the same name, since a slot is a place.
    have hname : other = name := by
      have hplace' := getElem?_of_lookup_slotsOf hj
      rw [← hij, hplace] at hplace'
      exact (Option.some.inj hplace').symm
    rw [if_pos hij, if_pos hlt, hname, Function.update_self]
  · have hname : other ≠ name := by
      rintro rfl
      rw [hi] at hj
      exact hij (Option.some.inj hj)
    rw [if_neg hij, Function.update_of_ne hname, h.value_eq other j hj]

end Machine

/-! ### Blocks -/

/-- An expression only depends on the variables that it reads. -/
theorem Expr.evaluate_congr {read read' : String → Except EvalError Int64} {e : Expr}
    (h : ∀ name ∈ e.loads, read name = read' name) : e.evaluate read = e.evaluate read' := by
  induction e with
  | const value => rfl
  | load name => exact h name (List.mem_singleton.mpr rfl)
  | binary op left right ihl ihr =>
    have hl := ihl fun name hname => h name (List.mem_append_left _ hname)
    have hr := ihr fun name hname => h name (List.mem_append_right _ hname)
    rw [evaluate, evaluate, hl, hr]
  | absent => rfl

namespace Machine

variable {names : List String} {vars : Array Int64} {env : Env}

theorem Holds.evaluate (h : Holds names vars env) {e : Expr}
    (he : ∀ name ∈ e.loads, name ∈ names) :
    e.evaluate (Machine.readSlot (slotsOf names) vars) = e.valueIn env :=
  Expr.evaluate_congr fun name hname => h.readSlot (he name hname)

namespace Transfer

/-- Where a transfer leads, with the variables that are left. -/
def progress (env : Env) : Transfer → Progress Nat
  | goto target => .going target env
  | finish value => .ended (.finished value) env
  | fail error => .ended (.failed error) env

end Transfer

theorem Holds.transferOf (h : Holds names vars env) {term : Option Terminator}
    (hterm : ∀ t, term = some t → ∀ name ∈ t.loads, name ∈ names) :
    exitStep term env = (transferOf (Machine.readSlot (slotsOf names) vars) term).progress env := by
  rcases term with _ | (target | ⟨test, onTrue, onFalse⟩ | value | name)
  · rfl
  · rfl
  · have htest := h.evaluate (hterm _ rfl : ∀ name ∈ test.loads, name ∈ names)
    simp only [exitStep, Machine.transferOf, htest]
    cases test.valueIn env <;> rfl
  · have hvalue := h.evaluate (hterm _ rfl : ∀ name ∈ value.loads, name ∈ names)
    simp only [exitStep, Machine.transferOf, hvalue]
    cases value.valueIn env <;> rfl
  · rfl

/-- **A block does to the slots what it does to the names.** -/
theorem Holds.effect (h : Holds names vars env) {b : Block}
    (hstores : ∀ s ∈ b.stores, s.Within names)
    (hterm : ∀ t, b.term = some t → ∀ name ∈ t.loads, name ∈ names) :
    ∃ transfer vars' env', Machine.effect (slotsOf names) b vars = (transfer, vars') ∧
      Holds names vars' env' ∧ bodyStep b.stores b.term env = transfer.progress env' := by
  unfold Machine.effect
  generalize b.stores = stores at hstores
  induction stores generalizing vars env with
  | nil => exact ⟨_, vars, env, rfl, h, h.transferOf hterm⟩
  | cons s rest ih =>
    obtain ⟨hname, hloads⟩ := hstores s List.mem_cons_self
    simp only [storeAll, bodyStep, h.evaluate hloads]
    cases s.value.valueIn env with
    | error error => exact ⟨.fail error, vars, env, rfl, h, rfl⟩
    | ok value =>
      obtain ⟨i, hi⟩ := exists_lookup_slotsOf hname
      obtain ⟨hlt, hset⟩ := h.set hi value
      simp only [hi, Option.getD_some, if_pos hlt]
      exact ih hset fun s' hs' => hstores s' (List.mem_cons_of_mem _ hs')

/-! ### Runs -/

/-- The outcome of a run reports the way in which the program ended. -/
def Reports : Ending → Outcome → Prop
  | .finished value, outcome => outcome = .finished value
  | .failed .outOfBounds, outcome => outcome = .crashed
  | .failed error, outcome => ∃ block, outcome = .failed (.inBlock block error)

/-- An outcome reports one way of ending only. -/
theorem Reports.unique {ending ending' : Ending} {outcome : Outcome} (h : Reports ending outcome)
    (h' : Reports ending' outcome) : ending = ending' := by
  unfold Reports at h h'
  split at h
  · subst h
    split at h'
    · cases h'
      rfl
    · cases h'
    · obtain ⟨block, h'⟩ := h'
      cases h'
  · subst h
    split at h'
    · cases h'
    · rfl
    · obtain ⟨block, h'⟩ := h'
      cases h'
  · obtain ⟨block, rfl⟩ := h
    split at h'
    · cases h'
    · cases h'
    · obtain ⟨block', h'⟩ := h'
      cases h'
      rfl

theorem Reports.ne_unfinished {ending : Ending} {outcome : Outcome} (h : Reports ending outcome) :
    outcome ≠ .unfinished := by
  rintro rfl
  unfold Reports at h
  split at h
  · cases h
  · cases h
  · obtain ⟨block, h⟩ := h
    cases h

/-- A machine for the graph, without a limit, whose variables have the given values. -/
structure Agrees (g : Graph) (m : Machine) (env : Env) : Prop where
  /-- It is a machine for the graph. -/
  graph_eq : m.graph = g
  /-- It has no limit. -/
  limit_le : m.limit ≤ 0
  /-- Its slots are those of the variables of the graph. -/
  slots_eq : m.slots = slotsOf g.vars
  /-- They hold the values. -/
  holds : Holds g.vars m.vars env
  /-- Its stack can be used. -/
  usable : m.stack.Usable

/-- What is left of a run shows the result of repeating steps. -/
def Shows (g : Graph) : Option (Ending × Env) → Outcome → Machine → Prop
  | none, outcome, _ => outcome = .unfinished
  | some (ending, env), outcome, m => Reports ending outcome ∧ Agrees g m env

variable {g : Graph} {m : Machine}

/-- What can be seen of the variables of a machine: the values of the variables of its graph. -/
theorem Agrees.get?_eq (h : Agrees g m env) : m.get? = env.restrict g.vars := by
  funext name
  rw [get?, slot?, h.slots_eq, Env.restrict]
  by_cases hname : name ∈ g.vars
  · obtain ⟨i, hi⟩ := exists_lookup_slotsOf hname
    rw [if_pos hname, hi, Option.bind_some, h.holds.value_eq name i hi]
  · rw [if_neg hname, lookup_slotsOf_eq_none hname, Option.bind_none]

/-- A machine that executes a block goes where the block leads. -/
theorem Agrees.step (h : Agrees g m env) (hg : g.Closed) {i : Nat} {b : Block}
    (hb : g.blocks[i]? = some b) : ∃ transfer m' env', m.step b = (transfer, m') ∧
      Agrees g m' env' ∧ g.blockStep i env = transfer.progress env' := by
  have hbody : g.body? i = some (b.stores, b.term) := by rw [Graph.body?, hb]; rfl
  obtain ⟨hstores, hterm⟩ := hg i b.stores b.term hbody
  obtain ⟨transfer, vars', env', heffect, hholds, hstep⟩ := h.holds.effect hstores hterm
  obtain ⟨s, hs, hmachine⟩ := step_spec m b h.usable
  rw [h.slots_eq, heffect] at hmachine
  refine ⟨transfer, _, env', hmachine, ⟨h.graph_eq, h.limit_le, rfl, hholds, hs⟩, ?_⟩
  rw [Graph.blockStep, hbody]
  exact hstep

/-- **A run without a limit that nobody cancels repeats block steps.** -/
theorem shows_runFrom (hg : g.Closed) (fuel : Nat) :
    ∀ {m : Machine} {env : Env} (block : Nat), Agrees g m env →
      ∃ outcome m', m.runFrom fuel none block = (outcome, m', none) ∧
        Shows g (Progress.run g.blockStep fuel block env) outcome m' := by
  induction fuel with
  | zero => exact fun {m env} block _ => ⟨.unfinished, m, rfl, rfl⟩
  | succ fuel ih =>
    intro m env block h
    have hblocks : m.graph.blocks[block]? = g.blocks[block]? := by rw [h.graph_eq]
    rw [runFrom, hblocks, Progress.run]
    cases hb : g.blocks[block]? with
    | none =>
      have hbody : g.body? block = none := by rw [Graph.body?, hb]; rfl
      have hstep : g.blockStep block env = .ended (.failed .outOfBounds) env := by
        rw [Graph.blockStep, hbody]
      rw [hstep]
      exact ⟨.crashed, m, rfl, rfl, h⟩
    | some b =>
      have hcounted : Agrees g { m with steps := m.steps + 1 } env :=
        ⟨h.graph_eq, h.limit_le, h.slots_eq, h.holds, h.usable⟩
      obtain ⟨transfer, m', env', hstep, hafter, hblock⟩ := hcounted.step hg hb
      have hlimit : ¬ (0 < m.limit ∧ m.limit < (m.steps + 1 : Nat)) := by
        have := h.limit_le
        omega
      rw [hblock]
      simp only [reduceCtorEq, ↓reduceIte, hlimit, hstep, Option.map_none]
      cases transfer with
      | goto target => exact ih target hafter
      | finish value => exact ⟨.finished value, m', rfl, rfl, hafter⟩
      | fail error =>
        cases error with
        | outOfBounds => exact ⟨.crashed, m', rfl, rfl, hafter⟩
        | _ => exact ⟨_, m', rfl, ⟨_, rfl⟩, hafter⟩

/-! ### The start of a run -/

/-- The values of all variables at the start of a run: zero, unless there is an input. -/
def startEnv (inputs : Inputs) : Env :=
  fun name => (inputs.get? name).getD 0

/-- Inputs for variables are all taken. -/
theorem Holds.bindInputs {entries : List (String × Int64)}
    (hincreasing : entries.Pairwise fun a b => a.1 < b.1)
    (hnames : ∀ entry ∈ entries, entry.1 ∈ names) :
    ∀ {vars : Array Int64} {env : Env}, Holds names vars env →
      ∃ vars', Machine.bindInputs (slotsOf names) entries vars = (vars', none) ∧
        Holds names vars' fun name => (entries.lookup name).getD (env name) := by
  induction entries with
  | nil => exact fun {vars env} h => ⟨vars, rfl, h⟩
  | cons entry rest ih =>
    intro vars env h
    obtain ⟨name, value⟩ := entry
    obtain ⟨hfirst, hrest⟩ := List.pairwise_cons.mp hincreasing
    obtain ⟨i, hi⟩ := exists_lookup_slotsOf (hnames _ List.mem_cons_self)
    obtain ⟨vars', hbind, hholds⟩ := ih hrest
      (fun entry hentry => hnames entry (List.mem_cons_of_mem _ hentry)) (h.set hi value).2
    refine ⟨vars', by simp only [Machine.bindInputs, hi, hbind], ?_⟩
    -- The later inputs are for other names, so they do not hide the first one.
    have hother : rest.lookup name = none := by
      rw [List.lookup_eq_none_iff]
      intro entry hentry
      have hlt := hfirst entry hentry
      rw [bne_iff_ne]
      rintro rfl
      exact String.lt_irrefl _ hlt
    have henv : (fun other => (List.lookup other ((name, value) :: rest)).getD (env other)) =
        fun other => (rest.lookup other).getD (Function.update env name value other) := by
      funext other
      rw [List.lookup_cons]
      by_cases hname : other = name
      · rw [hname, beq_self_eq_true, hother, Function.update_self]
        rfl
      · rw [beq_false_of_ne hname, Function.update_of_ne hname]
    rw [henv]
    exact hholds

theorem holds_zero (names : List String) :
    Holds names (Array.replicate names.length 0) fun _ => 0 := by
  refine ⟨Array.size_replicate, fun name i hi => ?_⟩
  have hlt := (List.getElem?_eq_some_iff.mp (getElem?_of_lookup_slotsOf hi)).1
  rw [Array.getElem?_replicate, if_pos hlt]

/-- **A new machine repeats block steps from the entry,** with the inputs as the values to start
from. -/
theorem shows_run (hg : g.Closed) {limit : Int} (hlimit : limit ≤ 0) {inputs : Inputs}
    (hinputs : ∀ entry ∈ inputs.entries, entry.1 ∈ g.vars) (fuel : Nat) :
    ∃ outcome m', (new g limit inputs).run fuel none = (outcome, m', none) ∧
      Shows g (Progress.run g.blockStep fuel 0 (startEnv inputs)) outcome m' := by
  have hzero : (Array.replicate g.vars.length (0 : Int64)).map (fun _ => (0 : Int64)) =
      Array.replicate g.vars.length 0 := Array.map_replicate
  obtain ⟨vars, hbind, hholds⟩ := (holds_zero g.vars).bindInputs inputs.increasing hinputs
  have hrun : (new g limit inputs).run fuel none =
      runFrom fuel { (new g limit inputs).reset with vars := vars } none 0 := by
    simp only [run, reset, new, hzero, hbind]
  rw [hrun]
  exact shows_runFrom hg fuel 0 ⟨rfl, hlimit, rfl, hholds, Nat.zero_le _, EvalStack.Usable.fresh.2⟩

/-- A new machine ends in the ways in which repeating block steps ends, and leaves the same values
of the variables. -/
theorem reports_run_iff (hg : g.Closed) {limit : Int} (hlimit : limit ≤ 0) {inputs : Inputs}
    (hinputs : ∀ entry ∈ inputs.entries, entry.1 ∈ g.vars) (ending : Ending)
    (values : String → Option Int64) :
    (∃ fuel, Reports ending ((new g limit inputs).run fuel none).1 ∧
        ((new g limit inputs).run fuel none).2.1.get? = values) ↔
      ∃ env, (∃ fuel, Progress.run g.blockStep fuel 0 (startEnv inputs) = some (ending, env)) ∧
        env.restrict g.vars = values := by
  constructor
  · rintro ⟨fuel, hreports, hvalues⟩
    obtain ⟨outcome, m', hrun, hshows⟩ := shows_run hg hlimit hinputs fuel
    rw [hrun] at hreports hvalues
    cases hresult : Progress.run g.blockStep fuel 0 (startEnv inputs) with
    | none =>
      rw [hresult] at hshows
      exact absurd hshows hreports.ne_unfinished
    | some result =>
      obtain ⟨ending', env⟩ := result
      rw [hresult] at hshows
      rw [← hreports.unique hshows.1] at hresult
      exact ⟨env, ⟨fuel, hresult⟩, hshows.2.get?_eq.symm.trans hvalues⟩
  · rintro ⟨env, ⟨fuel, hresult⟩, hvalues⟩
    obtain ⟨outcome, m', hrun, hshows⟩ := shows_run hg hlimit hinputs fuel
    rw [hresult] at hshows
    refine ⟨fuel, ?_⟩
    rw [hrun]
    exact ⟨hshows.1, hshows.2.get?_eq.trans hvalues⟩

/-- A new machine runs forever exactly if repeating block steps never ends. -/
theorem unfinished_run_iff (hg : g.Closed) {limit : Int} (hlimit : limit ≤ 0) {inputs : Inputs}
    (hinputs : ∀ entry ∈ inputs.entries, entry.1 ∈ g.vars) :
    (∀ fuel, ((new g limit inputs).run fuel none).1 = .unfinished) ↔
      ∀ fuel, Progress.run g.blockStep fuel 0 (startEnv inputs) = none := by
  refine forall_congr' fun fuel => ?_
  obtain ⟨outcome, m', hrun, hshows⟩ := shows_run hg hlimit hinputs fuel
  rw [hrun]
  cases hresult : Progress.run g.blockStep fuel 0 (startEnv inputs) with
  | none =>
    rw [hresult] at hshows
    exact iff_of_true hshows rfl
  | some result =>
    rw [hresult] at hshows
    exact iff_of_false hshows.1.ne_unfinished (Option.some_ne_none result)

end Machine

end BlockFlow
