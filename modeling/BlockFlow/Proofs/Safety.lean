import BlockFlow.Proofs.Folding
import BlockFlow.Proofs.Lowering.Soundness
import BlockFlow.Proofs.Variables

/-!
# Lowered programs cannot go wrong

A machine for a sound graph never looks for anything that is not there: neither a cell of its stack,
nor a slot, nor a block.  Of the errors inside a block only the division by zero is left, and a run
is refused only for an input that no variable is meant by (`Outcome.Permitted`).

A machine keeps its slots in order (`Machine.Intact`).  That one block keeps them so is
`Machine.Intact.step`; that whole runs do, and end in a permitted way, is `Machine.Intact.runFrom`
and `Machine.Intact.run`.  Graphs that lowering makes are sound, and folding makes no difference
that a run could show, so the same holds of folded graphs (`Graph.reports_lowered`).
-/

namespace BlockFlow

namespace Op

/-- An operator of the language has a value unless it divides by zero. -/
theorem eq_div_of_eval {op : Op} {l r : Int64} (hop : ∀ code, op ≠ .other code)
    (h : op.eval l r = none) : op = .div := by
  cases op with
  | div => rfl
  | other code => exact absurd rfl (hop code)
  | _ => cases h

end Op

namespace Machine

/-! ### One block -/

section Effects

variable {names : List String} {vars : Array Int64}

theorem lt_size_of_lookup (hsize : vars.size = names.length) {name : String} {i : Nat}
    (h : (slotsOf names).lookup name = some i) : i < vars.size := by
  rw [hsize]
  exact (List.getElem?_eq_some_iff.mp (getElem?_of_lookup_slotsOf h)).1

/-- An expression has a value or divides by zero. -/
theorem evaluate_of_sound (hsize : vars.size = names.length) {e : Expr} (h : e.Sound names) :
    (∃ value, e.evaluate (readSlot (slotsOf names) vars) = .ok value) ∨
      e.evaluate (readSlot (slotsOf names) vars) = .error .divisionByZero := by
  induction e with
  | const value => exact .inl ⟨value, rfl⟩
  | load name =>
    obtain ⟨i, hi⟩ := exists_lookup_slotsOf h
    have hlt := lt_size_of_lookup hsize hi
    refine .inl ⟨vars[i], ?_⟩
    simp only [Expr.evaluate, readSlot, hi, Array.getElem?_eq_getElem hlt]
  | binary op left right ihl ihr =>
    obtain ⟨hop, hleft, hright⟩ := h
    rw [Expr.evaluate]
    rcases ihl hleft with ⟨l, hl⟩ | hl
    · rcases ihr hright with ⟨r, hr⟩ | hr
      · rw [hl, hr]
        cases hvalue : op.eval l r with
        | some value => exact .inl ⟨value, by simp only [hvalue]⟩
        | none =>
          obtain rfl := Op.eq_div_of_eval hop hvalue
          exact .inr (by simp only [hvalue]; rfl)
      · exact .inr (by rw [hl, hr])
    · exact .inr (by rw [hl])
  | absent => exact absurd h id

/-- Stores are all carried out, unless one of them divides by zero. -/
theorem storeAll_of_sound {stores : List Store} (h : ∀ s ∈ stores, s.Sound names) :
    ∀ {vars : Array Int64}, vars.size = names.length →
      (storeAll (slotsOf names) stores vars).1.size = names.length ∧
        ∀ error, (storeAll (slotsOf names) stores vars).2 = some error →
          error = .divisionByZero := by
  induction stores with
  | nil => exact fun hsize => ⟨hsize, nofun⟩
  | cons s rest ih =>
    intro vars hsize
    obtain ⟨hs, hrest⟩ := List.forall_mem_cons.mp h
    obtain ⟨i, hi⟩ := exists_lookup_slotsOf hs.name_mem
    have hlt := lt_size_of_lookup hsize hi
    rw [storeAll]
    rcases evaluate_of_sound hsize hs.value with ⟨value, hvalue⟩ | hvalue
    · simp only [hvalue, hi, Option.getD_some, if_pos hlt]
      apply ih hrest
      rw [Array.size_setIfInBounds, hsize]
    · simp only [hvalue]
      exact ⟨hsize, fun error herror => (Option.some.inj herror).symm⟩

/-- Where a block of a graph may lead: to a block, to the end, or to a division by zero. -/
def Transfer.Permitted (g : Graph) : Transfer → Prop
  | goto target => target < g.blocks.size
  | finish _ => True
  | fail error => error = .divisionByZero

/-- What a block does: it leads where it may, and leaves a slot for every variable. -/
theorem effect_of_sound {g : Graph} (hg : g.Sound) {i : Nat} {b : Block}
    (hb : g.blocks[i]? = some b) (hsize : vars.size = g.vars.length) :
    (effect (slotsOf g.vars) b vars).1.Permitted g ∧
      (effect (slotsOf g.vars) b vars).2.size = g.vars.length := by
  have hsound := hg.block hb
  have htargets : ∀ target ∈ b.successors, target < g.blocks.size := by
    intro target htarget
    refine hg.targets i target ?_
    rwa [Graph.successors_of_getElem? hb]
  obtain ⟨hstored, herror⟩ := storeAll_of_sound hsound.stores hsize
  unfold effect
  generalize storeAll (slotsOf g.vars) b.stores vars = stored at hstored herror ⊢
  obtain ⟨vars', error⟩ := stored
  cases error with
  | some error => exact ⟨herror error rfl, hstored⟩
  | none =>
    refine ⟨?_, hstored⟩
    cases hterm : b.term with
    | none => trivial
    | some t =>
      have ht := hsound.term t hterm
      rw [Block.successors, hterm] at htargets
      cases t with
      | jump target => exact htargets target (List.mem_singleton.mpr rfl)
      | branch test onTrue onFalse =>
        rcases evaluate_of_sound hstored ht with ⟨value, hvalue⟩ | hvalue
        · simp only [transferOf, hvalue]
          show (if 0 < value then onTrue else onFalse) < g.blocks.size
          split
          · exact htargets onTrue List.mem_cons_self
          · exact htargets onFalse (List.mem_cons_of_mem _ (List.mem_singleton.mpr rfl))
        · simp only [transferOf, hvalue]
          rfl
      | ret value =>
        rcases evaluate_of_sound hstored ht with ⟨result, hresult⟩ | hresult
        · simp only [transferOf, hresult]
          trivial
        · simp only [transferOf, hresult]
          rfl
      | other name => exact absurd ht id

end Effects

/-! ### Runs -/

end Machine

/-- How a run may end: with a value, with no answer yet, with an input that no variable is meant by,
by a cancellation, beyond a limit, or with a division by zero. -/
def Outcome.Permitted (vars : List String) (limit : Int) (inputs : Inputs)
    (polls : Machine.Polls) : Outcome → Prop
  | finished _ => True
  | unfinished => True
  | failed (.unknownInput name) => name ∉ vars ∧ name ∈ inputs.entries.map Prod.fst
  | failed .cancelled => polls ≠ none
  | failed (.stepLimit _ exceeded) => 0 < limit ∧ exceeded = limit
  | failed (.inBlock _ error) => error = .divisionByZero
  | crashed => False

/-- What is permitted depends on the cancellation only in so far as there is one at all. -/
theorem Outcome.Permitted.imp {vars : List String} {limit : Int} {inputs : Inputs}
    {polls polls' : Machine.Polls} {outcome : Outcome}
    (h : outcome.Permitted vars limit inputs polls) (hpolls : polls ≠ none → polls' ≠ none) :
    outcome.Permitted vars limit inputs polls' := by
  cases outcome with
  | failed error =>
    cases error with
    | cancelled => exact hpolls h
    | _ => exact h
  | _ => exact h

namespace Machine

/-- A machine as it was made for a graph, except for the values of its variables: there is a slot
for every variable, and its stack can be used. -/
structure Intact (g : Graph) (limit : Int) (inputs : Inputs) (m : Machine) : Prop where
  graph_eq : m.graph = g
  limit_eq : m.limit = limit
  inputs_eq : m.inputs = inputs
  slots_eq : m.slots = slotsOf g.vars
  size_eq : m.vars.size = g.vars.length
  usable : m.stack.Usable

namespace Intact

variable {g : Graph} {limit : Int} {inputs : Inputs} {m : Machine}

theorem new (g : Graph) (limit : Int) (inputs : Inputs) :
    Intact g limit inputs (Machine.new g limit inputs) :=
  ⟨rfl, rfl, rfl, rfl, Array.size_replicate, .fresh⟩

/-- The variables that can be seen are those of the graph. -/
theorem isSome_get?_iff (h : Intact g limit inputs m) (name : String) :
    (m.get? name).isSome = true ↔ name ∈ g.vars := by
  rw [get?, slot?, h.slots_eq]
  constructor
  · intro hsome
    by_contra hnot
    rw [lookup_slotsOf_eq_none hnot] at hsome
    cases hsome
  · intro hname
    obtain ⟨i, hi⟩ := exists_lookup_slotsOf hname
    have hlt := lt_size_of_lookup h.size_eq hi
    rw [hi, Option.bind_some, Array.getElem?_eq_getElem hlt]
    rfl

/-- **A block keeps the machine intact,** and leads where it may. -/
theorem step (h : Intact g limit inputs m) (hg : g.Sound) {i : Nat} {b : Block}
    (hb : g.blocks[i]? = some b) :
    (m.step b).1.Permitted g ∧ Intact g limit inputs (m.step b).2 := by
  obtain ⟨s, hs, hstep⟩ := step_spec m b h.usable
  obtain ⟨hpermitted, hsize⟩ := effect_of_sound hg hb h.size_eq
  rw [hstep, h.slots_eq]
  exact ⟨hpermitted, h.graph_eq, h.limit_eq, h.inputs_eq, rfl, hsize, hs⟩

/-- **From a block on, a run ends as it may and leaves the machine intact.** -/
theorem runFrom (hg : g.Sound) (fuel : Nat) : ∀ {m : Machine} (polls : Polls) {block : Nat},
    Intact g limit inputs m → block < g.blocks.size →
      (m.runFrom fuel polls block).1.Permitted g.vars limit inputs polls ∧
        Intact g limit inputs (m.runFrom fuel polls block).2.1 := by
  induction fuel with
  | zero => exact fun polls _ h _ => ⟨trivial, h⟩
  | succ fuel ih =>
    intro m polls block h hblock
    have hb : g.blocks[block]? = some g.blocks[block] := Array.getElem?_eq_getElem hblock
    generalize g.blocks[block] = b at hb
    have hblocks : m.graph.blocks[block]? = some b := by rw [h.graph_eq, hb]
    rw [Machine.runFrom, hblocks]
    dsimp only
    split
    · rename_i hcancelled
      refine ⟨?_, h⟩
      show polls ≠ none
      rw [hcancelled]
      exact Option.some_ne_none 0
    · have hcounted : Intact g limit inputs { m with steps := m.steps + 1 } :=
        ⟨h.graph_eq, h.limit_eq, h.inputs_eq, h.slots_eq, h.size_eq, h.usable⟩
      split
      · rename_i hlimit
        refine ⟨?_, hcounted⟩
        show 0 < limit ∧ m.limit = limit
        rw [← h.limit_eq]
        exact ⟨hlimit.1, rfl⟩
      · obtain ⟨hpermitted, hintact⟩ := hcounted.step hg hb
        generalize Machine.step { m with steps := m.steps + 1 } b = after at hpermitted hintact ⊢
        obtain ⟨transfer, m'⟩ := after
        cases transfer with
        | goto target =>
          obtain ⟨houtcome, hafter⟩ := ih (polls.map (· - 1)) hintact hpermitted
          refine ⟨houtcome.imp ?_, hafter⟩
          -- A run that was never to be cancelled still is not after asking once.
          rintro hpolls rfl
          exact hpolls rfl
        | finish value => exact ⟨trivial, hintact⟩
        | fail error =>
          obtain rfl : error = .divisionByZero := hpermitted
          exact ⟨rfl, hintact⟩

end Intact

/-- Inputs go into slots, up to the first one that no variable is meant by. -/
theorem bindInputs_spec {names : List String} (entries : List (String × Int64)) :
    ∀ {vars : Array Int64}, vars.size = names.length →
      (bindInputs (slotsOf names) entries vars).1.size = names.length ∧
        ∀ name, (bindInputs (slotsOf names) entries vars).2 = some name →
          name ∉ names ∧ name ∈ entries.map Prod.fst := by
  induction entries with
  | nil => exact fun hsize => ⟨hsize, nofun⟩
  | cons entry rest ih =>
    intro vars hsize
    obtain ⟨name, value⟩ := entry
    rw [bindInputs]
    cases hlookup : (slotsOf names).lookup name with
    | none =>
      refine ⟨hsize, fun unknown hunknown => ?_⟩
      obtain rfl : name = unknown := Option.some.inj hunknown
      refine ⟨fun hname => ?_, List.mem_cons_self⟩
      obtain ⟨i, hi⟩ := exists_lookup_slotsOf hname
      rw [hlookup] at hi
      cases hi
    | some i =>
      have hset : (vars.setIfInBounds i value).size = names.length := by
        rw [Array.size_setIfInBounds, hsize]
      obtain ⟨hbound, hunknown⟩ := ih hset
      exact ⟨hbound, fun unknown h =>
        ⟨(hunknown unknown h).1, List.mem_cons_of_mem _ (hunknown unknown h).2⟩⟩

namespace Intact

variable {g : Graph} {limit : Int} {inputs : Inputs} {m : Machine}

theorem reset (h : Intact g limit inputs m) : Intact g limit inputs m.reset where
  graph_eq := h.graph_eq
  limit_eq := h.limit_eq
  inputs_eq := h.inputs_eq
  slots_eq := h.slots_eq
  size_eq := by rw [Machine.reset, Array.size_map, h.size_eq]
  usable := ⟨Nat.zero_le _, h.usable.size_pos⟩

/-- **A run ends as it may and leaves the machine intact,** so that it can be run again. -/
theorem run (h : Intact g limit inputs m) (hg : g.Sound) (fuel : Nat) (polls : Polls) :
    (m.run fuel polls).1.Permitted g.vars limit inputs polls ∧
      Intact g limit inputs (m.run fuel polls).2.1 := by
  have hreset := h.reset
  have hbind := bindInputs_spec m.reset.inputs.entries hreset.size_eq
  rw [← hreset.slots_eq] at hbind
  unfold Machine.run
  dsimp only
  generalize bindInputs m.reset.slots m.reset.inputs.entries m.reset.vars = bound at hbind ⊢
  obtain ⟨vars, unknown⟩ := bound
  rw [hreset.inputs_eq] at hbind
  obtain ⟨hsize, hunknown⟩ := hbind
  have hbound : Intact g limit inputs { m.reset with vars := vars } :=
    ⟨hreset.graph_eq, hreset.limit_eq, hreset.inputs_eq, hreset.slots_eq, hsize, hreset.usable⟩
  cases unknown with
  | some name => exact ⟨hunknown name rfl, hbound⟩
  | none => exact runFrom hg fuel polls hbound hg.nonempty

end Intact

/-- What a run may report: that it ended in a permitted way, and the values of just the variables
of the graph. -/
structure Report.Permitted (vars : List String) (limit : Int) (inputs : Inputs) (polls : Polls)
    (report : Report) : Prop where
  outcome : report.outcome.Permitted vars limit inputs polls
  isSome_get?_iff : ∀ name, (report.get? name).isSome = true ↔ name ∈ vars

/-- **However often a machine for a sound graph is run, each run ends as it may.** -/
theorem Intact.reports {g : Graph} {limit : Int} {inputs : Inputs} (hg : g.Sound)
    (runs : List (Nat × Polls)) : ∀ {m : Machine}, Intact g limit inputs m →
      List.Forall₂ (fun run report => report.Permitted g.vars limit inputs run.2) runs
        (m.reports runs) := by
  induction runs with
  | nil => exact fun _ => .nil
  | cons run rest ih =>
    intro m h
    obtain ⟨fuel, polls⟩ := run
    obtain ⟨hpermitted, hafter⟩ := h.run hg fuel polls
    exact .cons ⟨hpermitted, hafter.isSome_get?_iff⟩ (ih hafter)

end Machine

namespace Graph

/-- **Lowered programs cannot go wrong.**  Whatever tree was lowered, and whether the graph is run
as it came out or folded: under every limit, with any inputs, however often one machine is run and
whenever its runs are cancelled, no run needs a cell, a slot or a block that does not exist, and no
error remains but an input for none of the variables, a cancellation that was asked for, a limit
that was set, and a division by zero. -/
theorem reports_lowered {vars : List String} {root : Node} {g : Graph}
    (hg : lower vars root = .ok g) (limit : Int) (inputs : Inputs)
    (runs : List (Nat × Machine.Polls)) :
    ∀ g' ∈ [g, g.folded],
      List.Forall₂ (fun run report => report.Permitted vars limit inputs run.2) runs
        ((Machine.new g' limit inputs).reports runs) := by
  obtain ⟨hsound, hvars⟩ := sound_of_lower hg
  have hreports := Machine.Intact.reports hsound runs (.new g limit inputs)
  rw [hvars] at hreports
  intro g' hg'
  rcases List.mem_pair.mp hg' with rfl | rfl
  · exact hreports
  · rwa [(Machine.Twin.new g.alike_folded limit inputs).reports runs]

/-- The tree of `while 1 { x = 8 / x; }`. -/
def dividing : Node :=
  let leaf (lexeme : Lexeme) : Node := ⟨0, .term, some ⟨lexeme, {}⟩, []⟩
  let quotient : Node :=
    ⟨0, .value, none, [leaf (.number 8), ⟨0, .tail, none, [leaf (.op '/'), leaf (.ident "x")]⟩]⟩
  ⟨0, .sequence, none,
    [⟨0, .loop, none,
      [leaf (.number 1),
        ⟨0, .sequence, none, [⟨0, .assign, none, [leaf (.ident "x"), quotient]⟩]⟩]⟩]⟩

/-- Its graph. -/
def dividingGraph : Graph where
  vars := ["x"]
  blocks := #[
    ⟨0, "entry", [], some (.jump 1), []⟩,
    ⟨1, "while.cond", [], some (.branch (.const 1) 2 3), [0, 2]⟩,
    ⟨2, "while.body", [⟨"x", .binary .div (.const 8) (.load "x")⟩], some (.jump 1), [1]⟩,
    ⟨3, "while.end", [], none, [1]⟩]

/-- Dividing again and again, a machine fails in the second round with nine to start from, may be
cancelled before, and gives no answer when it executes too few blocks. -/
theorem reports_dividing : lower ["x"] dividing = .ok dividingGraph ∧
    ((Machine.new dividingGraph.folded 6 (.ofList [("x", 9)])).reports
      [(10, none), (10, some 2), (3, none)]).map Machine.Report.outcome =
        [.failed (.inBlock "while.body2" .divisionByZero), .failed .cancelled, .unfinished] ∧
    List.Forall₂ (fun run report => report.Permitted ["x"] 6 (.ofList [("x", 9)]) run.2)
      [(10, none), (10, some 2), (3, none)]
      ((Machine.new dividingGraph.folded 6 (.ofList [("x", 9)])).reports
        [(10, none), (10, some 2), (3, none)]) := by
  have hlower : lower ["x"] dividing = .ok dividingGraph := by rfl
  refine ⟨hlower, by decide +kernel, ?_⟩
  exact reports_lowered hlower 6 (.ofList [("x", 9)]) _ _
    (List.mem_cons_of_mem _ List.mem_cons_self)

end Graph

end BlockFlow
