import BlockFlow.Proofs.Lowering.Readability
import BlockFlow.Proofs.Safety
import BlockFlow.Proofs.Tree.Ungrouping

/-!
# How statements are cut into blocks does not matter

A statement that was not grouped gets a block of its own, while a basic block puts all its
statements into one.  So the graphs of a tree before and after grouping have different blocks, their
runs take different numbers of steps, and errors name different blocks.  That is all:
`Graph.lower_segmentBlocks` says that there is a graph of the one tree exactly if there is one of
the other, and that machines for the two graphs run alike.

Both graphs end as the same code does, since both trees read as that code.  What a run shows is
determined by the way in which its graph ends and by the names of the variables
(`Machine.runsAlike_of_ends_iff`).
-/

namespace BlockFlow

/-- The errors are the same but for the block that they name. -/
def RunError.SameKind : RunError → RunError → Prop
  | inBlock _ error, inBlock _ error' => error = error'
  | stepLimit _ limit, stepLimit _ limit' => limit = limit'
  | error, error' => error = error'

namespace Machine

/-- Two machines whose runs are not cancelled do the same.  They end with the same value or fail
with the same kind of error, and leave the same values of the variables, or both run forever. -/
inductive RunsAlike (m m' : Machine) : Prop where
  | finished {value : Int64} {fuel fuel' : Nat} (outcome : (m.run fuel none).1 = .finished value)
      (outcome' : (m'.run fuel' none).1 = .finished value)
      (values : (m.run fuel none).2.1.get? = (m'.run fuel' none).2.1.get?)
  | failed {error error' : RunError} {fuel fuel' : Nat}
      (outcome : (m.run fuel none).1 = .failed error)
      (outcome' : (m'.run fuel' none).1 = .failed error') (kind : error.SameKind error')
      (values : (m.run fuel none).2.1.get? = (m'.run fuel' none).2.1.get?)
  | forever (outcomes : ∀ fuel, (m.run fuel none).1 = .unfinished)
      (outcomes' : ∀ fuel, (m'.run fuel none).1 = .unfinished)

/-! ### Inputs that no variable is meant by -/

theorem bindInputs_eq_none_iff {names : List String} {entries : List (String × Int64)} :
    ∀ {vars : Array Int64}, (bindInputs (slotsOf names) entries vars).2 = none ↔
      ∀ entry ∈ entries, entry.1 ∈ names := by
  induction entries with
  | nil => simp [bindInputs]
  | cons entry rest ih =>
    intro vars
    obtain ⟨name, value⟩ := entry
    rw [bindInputs, List.forall_mem_cons]
    by_cases hname : name ∈ names
    · obtain ⟨i, hi⟩ := exists_lookup_slotsOf hname
      rw [hi]
      simp [ih, hname]
    · rw [lookup_slotsOf_eq_none hname]
      simp [hname]

/-- A run is refused before it enters the graph, so only the names of its variables matter. -/
theorem run_of_unknown {names : List String} {inputs : Inputs}
    (hinputs : ¬ ∀ entry ∈ inputs.entries, entry.1 ∈ names) : ∃ name values,
      ∀ (g : Graph) (limit : Int) (fuel : Nat), g.vars = names →
        ((new g limit inputs).run fuel none).1 = .failed (.unknownInput name) ∧
          ((new g limit inputs).run fuel none).2.1.get? = values := by
  let start := (Array.replicate names.length (0 : Int64)).map fun _ => (0 : Int64)
  obtain ⟨name, hname⟩ : ∃ name, (bindInputs (slotsOf names) inputs.entries start).2 = some name :=
    Option.ne_none_iff_exists'.mp fun hnone => hinputs (bindInputs_eq_none_iff.mp hnone)
  obtain ⟨vars, hbind⟩ : ∃ vars, bindInputs (slotsOf names) inputs.entries start =
      (vars, some name) := ⟨_, Prod.ext rfl hname⟩
  refine ⟨name, fun x => ((slotsOf names).lookup x).bind fun i => vars[i]?, ?_⟩
  rintro g limit fuel rfl
  simp only [run, reset, new]
  rw [hbind]
  exact ⟨rfl, rfl⟩

/-! ### Graphs that end alike -/

variable {g g' : Graph}

/-- **Machines for graphs that end alike run alike.** -/
theorem runsAlike_of_ends_iff (hsound : g.Sound) (hclosed : g.Closed) (hclosed' : g'.Closed)
    (hvars : g'.vars = g.vars)
    (hends : ∀ env result, (∃ n, Progress.run g.blockStep n 0 env = some result) ↔
      ∃ n, Progress.run g'.blockStep n 0 env = some result)
    {limit : Int} (hlimit : limit ≤ 0) (inputs : Inputs) :
    RunsAlike (new g limit inputs) (new g' limit inputs) := by
  by_cases hinputs : ∀ entry ∈ inputs.entries, entry.1 ∈ g.vars
  · have hinputs' : ∀ entry ∈ inputs.entries, entry.1 ∈ g'.vars := by rwa [hvars]
    by_cases hresult : ∃ n result, Progress.run g.blockStep n 0 (startEnv inputs) = some result
    · obtain ⟨n, ⟨ending, env⟩, hresult⟩ := hresult
      obtain ⟨fuel, hreports, hvalues⟩ := (reports_run_iff hclosed hlimit hinputs ending _).mpr
        ⟨env, ⟨n, hresult⟩, rfl⟩
      obtain ⟨fuel', hreports', hvalues'⟩ :=
        (reports_run_iff hclosed' hlimit hinputs' ending _).mpr
          ⟨env, (hends _ _).mp ⟨n, hresult⟩, rfl⟩
      have hsame := hvalues.trans (hvars ▸ hvalues'.symm)
      cases ending with
      | finished value => exact .finished hreports hreports' hsame
      | failed error =>
        cases error with
        | outOfBounds =>
          -- A machine for a sound graph finds everything that it looks for.
          have hpermitted := ((Intact.new g limit inputs).run hsound fuel none).1
          have hcrashed : ((new g limit inputs).run fuel none).1 = .crashed := hreports
          rw [hcrashed] at hpermitted
          exact hpermitted.elim
        | _ =>
          obtain ⟨block, houtcome⟩ := hreports
          obtain ⟨block', houtcome'⟩ := hreports'
          exact .failed houtcome houtcome' rfl hsame
    · have hnone : ∀ n, Progress.run g.blockStep n 0 (startEnv inputs) = none := fun n =>
        Option.eq_none_iff_forall_ne_some.mpr fun result h => hresult ⟨n, result, h⟩
      have hnone' : ∀ n, Progress.run g'.blockStep n 0 (startEnv inputs) = none := by
        intro n
        refine Option.eq_none_iff_forall_ne_some.mpr fun result h => ?_
        obtain ⟨m, hm⟩ := (hends _ result).mpr ⟨n, h⟩
        exact hresult ⟨m, result, hm⟩
      exact .forever ((unfinished_run_iff hclosed hlimit hinputs).mpr hnone)
        ((unfinished_run_iff hclosed' hlimit hinputs').mpr hnone')
  · obtain ⟨name, values, hrun⟩ := run_of_unknown hinputs
    obtain ⟨houtcome, hvalues⟩ := hrun g limit 0 rfl
    obtain ⟨houtcome', hvalues'⟩ := hrun g' limit 0 hvars
    exact .failed houtcome houtcome' rfl (hvalues.trans hvalues'.symm)

end Machine

namespace Graph

/-- **Grouping statements into basic blocks does not change meaning.**  Whatever tree is given, it
can be lowered exactly if it can be lowered when basic blocks are formed in it.  Without a limit and
whatever the inputs, machines for the two graphs then run alike. -/
theorem lower_segmentBlocks (vars : List String) (root : Node) (last : Nat) :
    ((∃ g, lower vars root = .ok g) ↔ ∃ g, lower vars (root.segmentBlocks last).1 = .ok g) ∧
    ∀ g g', lower vars root = .ok g → lower vars (root.segmentBlocks last).1 = .ok g' →
      ∀ limit ≤ 0, ∀ inputs,
        Machine.RunsAlike (Machine.new g limit inputs) (Machine.new g' limit inputs) := by
  constructor
  · rw [exists_lower_iff, exists_lower_iff, Node.rule_segmentBlocks]
    refine and_congr_right fun hrule => exists_congr fun code => ?_
    exact (Node.reads_segmentBlocks_iff hrule last code).symm
  · intro g g' hg hg' limit hlimit inputs
    obtain ⟨hrule, code, hcode⟩ := exists_lower_iff.mp ⟨g, hg⟩
    -- Both trees read as the same code, and each graph ends as the code does.
    obtain ⟨g₁, hg₁, hvars, hclosed, hends⟩ := lower_of_reads hrule hcode
    obtain ⟨g₂, hg₂, hvars', hclosed', hends'⟩ :=
      lower_of_reads (by simpa using hrule) (Node.reads_segmentBlocks hrule hcode last)
    obtain rfl : g = g₁ := Except.ok.inj (hg.symm.trans hg₁)
    obtain rfl : g' = g₂ := Except.ok.inj (hg'.symm.trans hg₂)
    exact Machine.runsAlike_of_ends_iff (sound_of_lower hg).1 hclosed hclosed'
      (hvars'.trans hvars.symm)
      (fun env result => (hends env result).symm.trans (hends' env result))
      hlimit inputs

/-- The tree of `x = x - 2; x = x * x; return 8 / x;`, with nothing grouped. -/
def squaring : Node :=
  let leaf (lexeme : Lexeme) : Node := ⟨0, .term, some ⟨lexeme, {}⟩, []⟩
  let binary (left : Lexeme) (symbol : Char) (right : Lexeme) : Node :=
    ⟨0, .value, none, [leaf left, ⟨0, .tail, none, [leaf (.op symbol), leaf right]⟩]⟩
  ⟨0, .sequence, none,
    [⟨0, .assign, none, [leaf (.ident "x"), binary (.ident "x") '-' (.number 2)]⟩,
      ⟨0, .assign, none, [leaf (.ident "x"), binary (.ident "x") '*' (.ident "x")]⟩,
      ⟨0, .ret, none, [binary (.number 8) '/' (.ident "x")]⟩]⟩

/-- Each of the three statements has a block of its own, or they share one; the machines run alike
all the same. -/
theorem lower_squaring : ∃ g g', lower ["x"] squaring = .ok g ∧
    lower ["x"] (squaring.segmentBlocks 0).1 = .ok g' ∧ g.blocks.size = 4 ∧ g'.blocks.size = 2 ∧
    Machine.RunsAlike (Machine.new g 0 (.ofList [("x", 2)]))
      (Machine.new g' 0 (.ofList [("x", 2)])) := by
  have hgraphs : ∃ g g', lower ["x"] squaring = .ok g ∧
      lower ["x"] (squaring.segmentBlocks 0).1 = .ok g' ∧ g.blocks.size = 4 ∧
      g'.blocks.size = 2 := ⟨_, _, rfl, rfl, rfl, rfl⟩
  obtain ⟨g, g', hg, hg', hsize, hsize'⟩ := hgraphs
  exact ⟨g, g', hg, hg', hsize, hsize',
    (lower_segmentBlocks ["x"] squaring 0).2 g g' hg hg' 0 (by decide) (.ofList [("x", 2)])⟩

end Graph

end BlockFlow
