import BlockFlow.Proofs.Tree.NormalForm
import BlockFlow.Proofs.Variables
import BlockFlow.Token.Scanner
import Mathlib.Tactic.SplitIfs

/-!
# Compiled programs mean what their statements say

A program is parsed, brought into normal form, lowered to a graph and executed by the machine.  Its
statements can also be interpreted as they stand.  `exists_lower_faithful` says that this makes no
difference: the machine ends with a value, or divides by zero, exactly if the interpreter does, with
the same values of all variables, and it runs forever exactly if the interpreter does.

The chain is put together from its links: statements are executed in step with their code, the
normal tree reads as that code, the graph of a tree ends as its code does, and the machine executes
the graph block by block.
-/

namespace BlockFlow

open Machine (startEnv)
open Statement (interpret sequenceOutline tokensAll)

/-! ### Operators in source texts -/

theorem operatorAt?_known {text spelt : List UInt8} {symbol : Char}
    (h : operatorAt? text = some (spelt, symbol)) :
    symbol ∈ ['+', '-', '*', '/', '<', '>', '=', '≤', '≥'] := by
  have hall : ∀ entry ∈ operatorSpellings,
      entry.2 ∈ ['+', '-', '*', '/', '<', '>', '=', '≤', '≥'] := by decide
  exact hall (spelt, symbol) (List.mem_of_find?_eq_some h)

theorem Lexeme.ofWord_ne_op (word : String) (symbol : Char) : ofWord word ≠ op symbol := by
  unfold ofWord
  split_ifs
  all_goals exact nofun

theorem punctuation?_ne_op (b : UInt8) (symbol : Char) : punctuation? b ≠ some (.op symbol) := by
  unfold punctuation?
  split_ifs
  all_goals exact nofun

/-- A class reads operators of the language only. -/
theorem TokenClass.read_known {cls : TokenClass} {text : List UInt8} {lexeme : Lexeme}
    (h : cls.read text = .ok lexeme) (span : Span) : Token.OperatorKnown ⟨lexeme, span⟩ := by
  rintro symbol rfl
  cases cls with
  | number =>
    rw [read] at h
    split_ifs at h
    cases h
  | word => exact absurd (Except.ok.inj h) (Lexeme.ofWord_ne_op _ symbol)
  | operator =>
    rw [read] at h
    split at h
    · rename_i spelt symbol' hat
      cases h
      exact operatorAt?_known hat
    · cases h
  | punctuation =>
    rw [read] at h
    split at h
    · rename_i lexeme' hlexeme
      cases h
      obtain ⟨b, -, hb⟩ := Option.bind_eq_some_iff.mp hlexeme
      exact absurd hb (punctuation?_ne_op b symbol)
    · cases h

theorem Scanner.next_known {s s' : Scanner} {t : Token} (h : s.next = (.ok t, s')) :
    t.OperatorKnown := by
  unfold next readToken at h
  split at h
  · cases h
    exact nofun
  · split at h
    · cases h
    · split at h
      · rename_i lexeme hread
        cases h
        exact TokenClass.read_known hread _
      · cases h

/-- **The operators of a source text are those of the language.** -/
theorem Scanner.scan_known {s : Scanner} {tokens : List Token} (h : s.scan = .ok tokens) :
    ∀ t ∈ tokens, t.OperatorKnown := by
  fun_induction scan s generalizing tokens with
  | case1 => cases h
  | case2 s t s' hnext hend =>
    cases h
    intro t' ht'
    rw [List.mem_singleton.mp ht']
    exact next_known hnext
  | case3 s t s' hnext hend ih =>
    cases hrest : s'.scan with
    | error e =>
      rw [hrest] at h
      cases h
    | ok rest =>
      rw [hrest] at h
      cases h
      intro t' ht'
      rcases List.mem_cons.mp ht' with rfl | ht'
      · exact next_known hnext
      · exact ih hrest t' ht'

/-! ### The machine and the interpreter -/

/-- A machine for the graph, without a limit and never cancelled, does with the inputs what
interpreting the program does. -/
structure Faithful (g : Graph) (limit : Int) (inputs : Inputs) (program : List Statement) :
    Prop where
  /-- They end with the same values, and leave the same values of the variables. -/
  finishes : ∀ value values,
    (∃ fuel, ((Machine.new g limit inputs).run fuel none).1 = .finished value ∧
      ((Machine.new g limit inputs).run fuel none).2.1.get? = values) ↔
    ∃ env, (∃ fuel, interpret fuel program (startEnv inputs) = some (.finished value, env)) ∧
      env.restrict g.vars = values
  /-- They divide by zero alike, and leave the same values of the variables. -/
  divides : ∀ values,
    (∃ fuel, (∃ block, ((Machine.new g limit inputs).run fuel none).1 =
        .failed (.inBlock block .divisionByZero)) ∧
      ((Machine.new g limit inputs).run fuel none).2.1.get? = values) ↔
    ∃ env, (∃ fuel, interpret fuel program (startEnv inputs) =
        some (.failed .divisionByZero, env)) ∧ env.restrict g.vars = values
  /-- They run forever alike. -/
  runsForever : (∀ fuel, ((Machine.new g limit inputs).run fuel none).1 = .unfinished) ↔
    ∀ fuel, interpret fuel program (startEnv inputs) = none

/-- A graph that ends as a program does is faithful to it. -/
theorem faithful_of_ends_iff {g : Graph} {program : List Statement} (hg : g.Closed)
    (hends : ∀ env result, (∃ n, interpret n program env = some result) ↔
      ∃ n, Progress.run g.blockStep n 0 env = some result)
    {limit : Int} (hlimit : limit ≤ 0) {inputs : Inputs}
    (hinputs : ∀ entry ∈ inputs.entries, entry.1 ∈ g.vars) : Faithful g limit inputs program where
  finishes value values := by
    simp only [hends]
    exact Machine.reports_run_iff hg hlimit hinputs (.finished value) values
  divides values := by
    simp only [hends]
    exact Machine.reports_run_iff hg hlimit hinputs (.failed .divisionByZero) values
  runsForever := by
    rw [Machine.unfinished_run_iff hg hlimit hinputs]
    -- Neither side has a result if the other has none, since they have the same results.
    simp only [Option.eq_none_iff_forall_ne_some]
    constructor
    · intro h n result hrun
      obtain ⟨m, hm⟩ := (hends _ result).mp ⟨n, hrun⟩
      exact h m result hm
    · intro h n result hrun
      obtain ⟨m, hm⟩ := (hends _ result).mpr ⟨n, hrun⟩
      exact h m result hm

/-- Tokens that are accepted and hold no foreign operator spell a program that can be executed. -/
theorem executable_of_parse {tokens : List Token} {program : List Statement}
    (hknown : ∀ t ∈ tokens, t.OperatorKnown) (hparse : parse tokens = .ok program) :
    Statement.Executable program := by
  obtain ⟨mark, after, rfl, -, hproper⟩ := parse_eq_ok_iff.mp hparse
  exact ⟨hproper, fun t ht => hknown t (List.mem_append_left _ ht)⟩

/-- **Compiling preserves meaning.**  For tokens that are accepted, and whose operators are those of
the language or that were read from a source text, the normal tree of the program can be lowered
with its own names as variables.  With values for some of these names as inputs, the machine does
with the graph what interpreting the statements of the program does. -/
theorem exists_lower_faithful {last : Nat} {tokens : List Token} {program : List Statement}
    {tree : Node × Nat} {limit : Int} {inputs : Inputs}
    (hknown : (∀ t ∈ tokens, t.OperatorKnown) ∨ ∃ source, scan source = .ok tokens)
    (hparse : parse tokens = .ok program) (htree : parseTree last tokens = .ok tree)
    (hinputs : ∀ entry ∈ inputs.entries, entry.1 ∈ (normalize tree).1.names)
    (hlimit : limit ≤ 0) :
    ∃ g, Graph.lower (normalize tree).1.names (normalize tree).1 = .ok g ∧
      g.vars = (normalize tree).1.names ∧ Faithful g limit inputs program := by
  have hknown : ∀ t ∈ tokens, t.OperatorKnown := by
    rcases hknown with hknown | ⟨source, hsource⟩
    · exact hknown
    · exact Scanner.scan_known hsource
  have hexecutable := executable_of_parse hknown hparse
  obtain ⟨program', hparse', rfl⟩ := Grammar.parseTree_eq_ok_iff.mp htree
  obtain rfl : program = program' := by
    rw [hparse] at hparse'
    exact Except.ok.inj hparse'
  obtain ⟨hrule, hreads⟩ := reads_normalize hexecutable last
  obtain ⟨g, hlower, hvars, hclosed, hends⟩ := Graph.lower_of_reads hrule hreads
  refine ⟨g, hlower, hvars, faithful_of_ends_iff hclosed (fun env result => ?_) hlimit ?_⟩
  · rw [Statement.ends_interpret_iff hexecutable, hends]
  · rw [hvars]
    exact hinputs

/-- The program `while x > 0 { x = x - 1; } return 7 / x;`. -/
def countdown : List Statement :=
  [.loop ⟨.whileWord, {}⟩ ⟨⟨.ident "x", {}⟩, some (⟨.op '>', {}⟩, ⟨.number 0, {}⟩)⟩ ⟨.openBrace, {}⟩
      [.assign ⟨.ident "x", {}⟩ ⟨.assign, {}⟩
        ⟨⟨.ident "x", {}⟩, some (⟨.op '-', {}⟩, ⟨.number 1, {}⟩)⟩ ⟨.delimiter, {}⟩]
      ⟨.closeBrace, {}⟩,
    .ret ⟨.returnWord, {}⟩ ⟨⟨.number 7, {}⟩, some (⟨.op '/', {}⟩, ⟨.ident "x", {}⟩)⟩
      ⟨.delimiter, {}⟩]

/-- Counting down from two, the compiled program divides by zero and leaves zero, as interpreting it
does. -/
theorem lower_countdown_divides :
    ∃ g, Graph.lower ["x"] (normalize ((sequenceOutline countdown).number 0)).1 = .ok g ∧
      ∃ fuel, (∃ block, ((Machine.new g 0 (.ofList [("x", 2)])).run fuel none).1 =
          .failed (.inBlock block .divisionByZero)) ∧
        ((Machine.new g 0 (.ofList [("x", 2)])).run fuel none).2.1.get? "x" = some 0 := by
  have hnames : (normalize ((sequenceOutline countdown).number 0)).1.names = ["x"] := by
    decide
  have hknown : ∀ t ∈ tokensAll countdown ++ [⟨.eof, {}⟩], t.OperatorKnown := by
    simp [countdown, tokensAll, Statement.tokens, Expression.tokens, Token.OperatorKnown]
  obtain ⟨g, hlower, hvars, hfaithful⟩ := @exists_lower_faithful 0
    (tokensAll countdown ++ [⟨.eof, {}⟩]) countdown ((sequenceOutline countdown).number 0) 0
    (.ofList [("x", 2)]) (.inl hknown) rfl rfl (by rw [hnames]; decide) (by decide)
  rw [hnames] at hlower hvars
  have hinterpret : ∃ env, interpret 8 countdown (startEnv (.ofList [("x", 2)])) =
      some (.failed .divisionByZero, env) ∧ env "x" = 0 := ⟨_, rfl, by decide⟩
  obtain ⟨env, hinterpret, hzero⟩ := hinterpret
  obtain ⟨fuel, hfailed, hget⟩ := (hfaithful.divides _).mpr ⟨env, ⟨8, hinterpret⟩, rfl⟩
  refine ⟨g, hlower, fuel, hfailed, ?_⟩
  rw [hget, hvars, Env.restrict, if_pos (by decide), hzero]

end BlockFlow
