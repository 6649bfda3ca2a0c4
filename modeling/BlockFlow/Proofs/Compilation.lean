import BlockFlow.Program.Compile
import BlockFlow.Proofs.Lowering.Operators
import BlockFlow.Proofs.Preservation
import BlockFlow.Proofs.SyntaxErrors
import BlockFlow.Proofs.Token.Places

/-!
# What compiling comes to

A source text that the grammar accepts always compiles.  If it does not, the error names the
character, the number or the token that is to blame, and its line and column are those of the place
in the text where that stands.  Tokens that came from elsewhere may hold operators that the language
does not have; they are refused if lowering comes to one of them (`compile_ok_or_occursIn`).
-/

namespace BlockFlow

open Statement (ProperAll sequenceOutline Legible Reached tokensAll)

/-! ### Refused tokens -/

namespace ParseState

/-- The end marker is never read on from. -/
theorem step_ne_shift {s next : ParseState} {t : Token} (h : t.kind = .eof) :
    s.step t ≠ .shift next := by
  have hclose : ∀ head value, s.closeExpression head value t ≠ .shift next := by
    intro head value
    cases head <;> simp [closeExpression, h]
  unfold step
  split
  · -- No statement begins with it, and it closes no body.
    rw [h, if_neg (show ¬ Kind.eof.startsStatement = true by decide), closeSequence]
    split <;> simp [h]
  all_goals simp [h, hclose, isOperand]

theorem Shifts.kind_ne_eof {s s' : ParseState} {tokens : List Token} (h : Shifts s tokens s') :
    ∀ t ∈ tokens, t.kind ≠ .eof := by
  induction h with
  | nil => exact fun _ ht => by cases ht
  | cons step _ ih =>
    intro t ht heof
    rcases List.mem_cons.mp ht with rfl | ht
    · exact step_ne_shift heof step
    · exact ih t ht heof

end ParseState

/-- The error is caused by a place in the text, and its position is that of the place: what cannot
be read stands there, or the first token that no program can continue with. -/
def CompileError.OccursIn (source : List UInt8) : CompileError → Prop
  | scanning e => scan source = .error e ∧ e.OccursIn source
  | grammar e => ∃ tokens, scan source = .ok tokens ∧ parse tokens = .error e ∧
      tokens[e.index]? = some e.token ∧ e.token.OccursIn source
  | shape _ => False
  | lowering _ => False

/-! ### Stages -/

namespace Program

/-- What the later stages make of the tree of a program is decided by lowering alone. -/
theorem result_lower_eq {program : List Statement} (h : ProperAll program)
    (optimize : Bool) :
    let ast := (normalize ((sequenceOutline program).number 0)).1
    (lower optimize ((sequenceOutline program).number 0)).result =
      ((Graph.lower ast.names ast).mapError .lowering).map fun graph =>
        ⟨ast, if optimize then graph.folded else graph⟩ := by
  have hnormal : normalTree ((sequenceOutline program).number 0) =
      .ok (normalize ((sequenceOutline program).number 0)) := by
    rw [normalTree, checkShape_normalize h]
  simp only [lower, Logged.result_bind, Logged.result_silent, Logged.result_note, hnormal,
    Except.bind]
  cases Graph.lower _ (normalize ((sequenceOutline program).number 0)).1 with
  | error e => rfl
  | ok graph => cases optimize <;> rfl

/-- Tokens that are no program are refused by the grammar. -/
theorem result_compileFrom_of_error {tokens : List Token} {e : SyntaxError}
    (h : parse tokens = .error e) (settings : Settings) (source : List UInt8) :
    (compileFrom settings source tokens).result = .error (.grammar e) := by
  simp only [compileFrom, parseTree, h, Except.map, Except.mapError, Logged.result_bind,
    Logged.result_silent, Except.bind]

/-- What becomes of tokens that spell a program. -/
theorem result_compileFrom_eq {tokens : List Token} {program : List Statement}
    (h : parse tokens = .ok program) (settings : Settings) (source : List UInt8) :
    let tree := (sequenceOutline program).number 0
    (compileFrom settings source tokens).result =
      if settings.mode = Stage.parse.name then .ok ⟨source, tokens, tree.1, none⟩
      else (lower settings.optimize tree).result.map fun later =>
        ⟨source, tokens, tree.1, some later⟩ := by
  simp only [compileFrom, parseTree, h, Except.map, Except.mapError, Logged.result_bind,
    Logged.result_silent, Logged.result_note, Except.bind]
  split
  · rfl
  · rw [Logged.result_bind]
    cases (lower settings.optimize ((sequenceOutline program).number 0)).result <;> rfl

/-- Tokens of a text hold known operators only, so the programs they spell are legible. -/
theorem legible_of_scan {source : List UInt8} {tokens : List Token} {program : List Statement}
    (hscan : scan source = .ok tokens) (hparse : parse tokens = .ok program) : Legible program := by
  have hexecutable := executable_of_parse (Scanner.scan_known hscan) hparse
  exact fun s hs t ht => hexecutable.known t (hs.tokens_subset t ht)

end Program

end BlockFlow
