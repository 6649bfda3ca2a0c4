import BlockFlow.Proofs.Recognition

/-!
# Where syntax errors are found

A list of tokens that is no program has a longest part at its front that a program can begin with.
Recognition stops right behind it (`Grammar.firstImpossible`): what was read before the error can be
continued to a program, and together with the token that is blamed it cannot.

Nothing that can be read is a dead end, since each state of recognition can be completed
(`ParseState.completes`): the statement that has been begun is finished in the shortest way, and
then the open bodies are closed from the inside out.  On the other hand recognition looks at each
token once, so a token that it refuses is refused whatever comes next
(`ParseState.exists_shifts_of_run_eq_error`).

There is a fault for a token that begins no statement, but it is never found: a sequence goes on
exactly at the tokens that begin one (`ParseState.openStatement_eq_refuse_iff`), and ends at any
other, which is then told what was expected behind the sequence.
-/

namespace BlockFlow

namespace SyntaxFault

/-- The words for a statement that is unknown belong to no other fault. -/
theorem message_eq_unknownStatement_iff {fault : SyntaxFault} :
    fault.message = "unknown statement" ↔ fault = .unknownStatement := by
  cases fault with
  | expected kind =>
    -- What is expected is told in more words.
    have hlength : (expected kind).message.length = 32 + kind.name.length :=
      String.length_append _ _
    have hshort : "unknown statement".length = 17 := by decide
    refine ⟨fun heq => ?_, fun heq => by cases heq⟩
    rw [heq] at hlength
    omega
  | unknownStatement => decide
  | unknownValue => decide
  | leftover => decide
  | exhausted => decide

end SyntaxFault

namespace ParseState

variable {s s' : ParseState} {t : Token}

/-! ### No statement is unknown -/

/-- **The tokens that keep a sequence going are those that begin some statement.** -/
theorem openStatement_eq_refuse_iff : s.openStatement t = .refuse .unknownStatement ↔
    t.kind.startsStatement = false := by
  unfold openStatement
  cases t.kind with
  | returnWord | ident | ifWord | whileWord => simp [Kind.startsStatement]
  | _ => exact iff_of_true rfl rfl

theorem closeExpression_ne_unknownStatement (s : ParseState) (head : Head) (value : Expression)
    (t : Token) : s.closeExpression head value t ≠ .refuse .unknownStatement := by
  unfold closeExpression
  cases head with
  | ret | assign | cond | loop =>
    dsimp only
    split <;> simp

theorem closeSequence_ne_unknownStatement (s : ParseState) (t : Token) :
    s.closeSequence t ≠ .refuse .unknownStatement := by
  unfold closeSequence
  cases s.frames with
  | nil | cons =>
    dsimp only
    split <;> simp

/-- **No token is refused because no statement begins with it.**  A sequence looks at the token
first, and ends if that would be so. -/
theorem step_ne_unknownStatement (s : ParseState) (t : Token) :
    s.step t ≠ .refuse .unknownStatement := by
  unfold step
  cases s.phase with
  | statement =>
    dsimp only
    split
    · rename_i hstarts
      intro hopen
      rw [openStatement_eq_refuse_iff.mp hopen] at hstarts
      cases hstarts
    · exact s.closeSequence_ne_unknownStatement t
  | tail head left =>
    dsimp only
    split
    · simp
    · exact s.closeExpression_ne_unknownStatement head _ t
  | closing head value => exact s.closeExpression_ne_unknownStatement head value t
  | sign | operand | secondOperand | elseWord | elseOpening =>
    -- The other phases ask for one kind, or for an operand.
    dsimp only
    split <;> simp

/-! ### No state is a dead end -/

/-- Some tokens lead from the state to the end of a program. -/
def Completes (s : ParseState) : Prop :=
  ∃ rest program, ∀ index last, s.run index last rest = .ok program

theorem Completes.of_step (hstep : s.step t = .shift s') (h : s'.Completes) : s.Completes := by
  obtain ⟨rest, program, hrun⟩ := h
  refine ⟨t :: rest, program, fun index last => ?_⟩
  rw [run, hstep]
  exact hrun (index + 1) t

/-- Where a statement may begin, the open bodies can be closed. -/
theorem completes_statement (frames : List Frame) (done : List Statement) :
    Completes ⟨frames, done, .statement⟩ := by
  induction frames generalizing done with
  | nil => exact ⟨[⟨.eof, {}⟩], done, fun _ _ => rfl⟩
  | cons frame frames ih =>
    cases frame with
    | thenBody before word test opening =>
      -- The first arm of a conditional cannot be the end of it.
      have hclose : step ⟨.thenBody before word test opening :: frames, done, .statement⟩
          ⟨.closeBrace, {}⟩ =
        .shift ⟨frames, before, .elseWord word test opening done ⟨.closeBrace, {}⟩⟩ := rfl
      refine .of_step hclose (.of_step (t := ⟨.elseWord, {}⟩) rfl ?_)
      refine .of_step (t := ⟨.openBrace, {}⟩) rfl (.of_step (t := ⟨.closeBrace, {}⟩) rfl ?_)
      exact ih _
    | elseBody before word test opening firstArm closing elseWord elseOpening =>
      exact .of_step (t := ⟨.closeBrace, {}⟩) rfl (ih _)
    | loopBody before word test opening =>
      exact .of_step (t := ⟨.closeBrace, {}⟩) rfl (ih _)

/-- The token behind a complete expression leads to where a statement may begin. -/
theorem exists_closeExpression (frames : List Frame) (done : List Statement) (head : Head)
    (value : Expression) : ∃ t : Token, t.kind ≠ .op ∧ ∃ frames' done', ∀ phase,
      closeExpression ⟨frames, done, phase⟩ head value t =
        .shift ⟨frames', done', .statement⟩ := by
  cases head with
  | ret word =>
    exact ⟨⟨.delimiter, {}⟩, nofun, frames, done ++ [.ret word value ⟨.delimiter, {}⟩],
      fun _ => rfl⟩
  | assign target sign =>
    exact ⟨⟨.delimiter, {}⟩, nofun, frames, done ++ [.assign target sign value ⟨.delimiter, {}⟩],
      fun _ => rfl⟩
  | cond word =>
    exact ⟨⟨.openBrace, {}⟩, nofun, .thenBody done word value ⟨.openBrace, {}⟩ :: frames, [],
      fun _ => rfl⟩
  | loop word =>
    exact ⟨⟨.openBrace, {}⟩, nofun, .loopBody done word value ⟨.openBrace, {}⟩ :: frames, [],
      fun _ => rfl⟩

theorem completes_closing (frames : List Frame) (done : List Statement) (head : Head)
    (value : Expression) : Completes ⟨frames, done, .closing head value⟩ := by
  obtain ⟨t, _, frames', done', hclose⟩ := exists_closeExpression frames done head value
  exact .of_step (hclose (.closing head value)) (completes_statement frames' done')

theorem completes_tail (frames : List Frame) (done : List Statement) (head : Head) (left : Token) :
    Completes ⟨frames, done, .tail head left⟩ := by
  obtain ⟨t, hop, frames', done', hclose⟩ := exists_closeExpression frames done head ⟨left, none⟩
  have hstep : step ⟨frames, done, .tail head left⟩ t = .shift ⟨frames', done', .statement⟩ := by
    simp only [step]
    rw [if_neg hop]
    exact hclose (.tail head left)
  exact .of_step hstep (completes_statement frames' done')

theorem completes_operand (frames : List Frame) (done : List Statement) (head : Head) :
    Completes ⟨frames, done, .operand head⟩ :=
  .of_step (t := ⟨.number 0, {}⟩) rfl (completes_tail frames done head _)

theorem completes_elseOpening (frames : List Frame) (done : List Statement) (word : Token)
    (test : Expression) (opening : Token) (thenBody : List Statement) (closing elseWord : Token) :
    Completes ⟨frames, done, .elseOpening word test opening thenBody closing elseWord⟩ :=
  .of_step (t := ⟨.openBrace, {}⟩) rfl (completes_statement _ [])

/-- **No state of recognition is a dead end.** -/
theorem completes (s : ParseState) : s.Completes := by
  obtain ⟨frames, done, phase⟩ := s
  cases phase with
  | statement => exact completes_statement frames done
  | sign target => exact .of_step (t := ⟨.assign, {}⟩) rfl (completes_operand frames done _)
  | operand head => exact completes_operand frames done head
  | tail head left => exact completes_tail frames done head left
  | secondOperand head left op =>
    exact .of_step (t := ⟨.number 0, {}⟩) rfl (completes_closing frames done head _)
  | closing head value => exact completes_closing frames done head value
  | elseWord word test opening thenBody closing =>
    exact .of_step (t := ⟨.elseWord, {}⟩) rfl (completes_elseOpening frames done _ _ _ _ _ _)
  | elseOpening word test opening thenBody closing elseWord =>
    exact completes_elseOpening frames done word test opening thenBody closing elseWord

/-! ### What an error says -/

/-- **An error splits the tokens** into those that were read and the rest: the rest is empty, and
the last token is blamed, or it begins with a token that is refused. -/
theorem exists_shifts_of_run_eq_error {tokens : List Token} {index : Nat} {last : Token}
    {e : SyntaxError} (h : s.run index last tokens = .error e) :
    ∃ before s', Shifts s before s' ∧ e.index = index + before.length ∧
      ((tokens = before ∧ e.fault = .exhausted ∧ e.token = before.getLast?.getD last) ∨
        ∃ rest, tokens = before ++ e.token :: rest ∧ s'.step e.token = .refuse e.fault) := by
  induction tokens generalizing s index last with
  | nil =>
    cases h
    exact ⟨[], s, .nil s, rfl, .inl ⟨rfl, rfl, rfl⟩⟩
  | cons t rest ih =>
    rw [run] at h
    cases hstep : s.step t with
    | shift next =>
      rw [hstep] at h
      obtain ⟨before, s', hshifts, hindex, hcases⟩ := ih h
      refine ⟨t :: before, s', .cons hstep hshifts, ?_, ?_⟩
      · rw [hindex, List.length_cons]
        omega
      · rcases hcases with ⟨rfl, hfault, htoken⟩ | ⟨rest', rfl, hrefuse⟩
        · refine .inl ⟨rfl, hfault, ?_⟩
          rw [List.getLast?_cons]
          exact htoken
        · exact .inr ⟨rest', rfl, hrefuse⟩
    | accept program =>
      rw [hstep] at h
      cases h
    | refuse fault =>
      rw [hstep] at h
      cases h
      exact ⟨[], s, .nil s, rfl, .inr ⟨rest, rfl, hstep⟩⟩

end ParseState

namespace Grammar

open ParseState

theorem parse_eq_error_of_parseTree {last : Nat} {tokens : List Token} {e : SyntaxError}
    (h : parseTree last tokens = .error e) : parse tokens = .error e := by
  unfold parseTree at h
  cases hparse : parse tokens with
  | error e' =>
    rw [hparse] at h
    cases h
    rfl
  | ok program =>
    rw [hparse] at h
    cases h

/-- Tokens that were read can be continued to a program. -/
theorem exists_parse_of_shifts {before : List Token} {s : ParseState} (h : Shifts {} before s) :
    ∃ rest program, parse (before ++ rest) = .ok program := by
  obtain ⟨rest, program, hcomplete⟩ := s.completes
  obtain ⟨last, hrun⟩ := h.run 0 {}
  exact ⟨rest, program, (hrun rest).trans (hcomplete _ last)⟩

/-- No program begins with tokens that were read and a token that is refused. -/
theorem parse_ne_ok_of_refuse {before : List Token} {s : ParseState} {t : Token}
    {fault : SyntaxFault} (h : Shifts {} before s) (hrefuse : s.step t = .refuse fault)
    (rest : List Token) (program : List Statement) : parse (before ++ t :: rest) ≠ .ok program := by
  obtain ⟨last, hrun⟩ := h.run 0 {}
  intro hparse
  have hfail : s.run (0 + before.length) last (t :: rest) =
      .error ⟨fault, t, 0 + before.length⟩ := by
    rw [run, hrefuse]
  rw [parse, hrun, hfail] at hparse
  cases hparse

/-- **Syntax errors point at the first impossible token.**  If tokens are no program, then those
read before the error begin some program.  If any are left, the first of these is blamed, and no
program begins with the tokens read and the one that is blamed.  If none is left, the error says so
and blames the last token, or an empty one if there are no tokens at all.  No error ever says that a
statement is unknown. -/
theorem firstImpossible {last : Nat} {tokens : List Token} {e : SyntaxError}
    (h : parseTree last tokens = .error e) :
    e.index ≤ tokens.length ∧
    (∃ rest tree, parseTree last (tokens.take e.index ++ rest) = .ok tree) ∧
    (e.index < tokens.length → tokens[e.index]? = some e.token ∧
      ∀ rest tree, parseTree last (tokens.take (e.index + 1) ++ rest) ≠ .ok tree) ∧
    (e.index = tokens.length →
      e.fault.message = "no tokens left to peek" ∧ e.token = tokens.getLast?.getD {}) ∧
    e.fault.message ≠ "unknown statement" := by
  obtain ⟨before, s, hshifts, hindex, hcases⟩ :=
    exists_shifts_of_run_eq_error (parse_eq_error_of_parseTree h)
  rw [Nat.zero_add] at hindex
  have htake : tokens.take e.index = before := by
    rcases hcases with ⟨rfl, _⟩ | ⟨rest, rfl, _⟩
    · rw [hindex, List.take_length]
    · rw [hindex, List.take_left']
      rfl
  have hle : e.index ≤ tokens.length := by
    have hlength := congrArg List.length htake
    rw [List.length_take] at hlength
    omega
  refine ⟨hle, ?_, fun hlt => ?_, fun heq => ?_, fun hmessage => ?_⟩
  · rw [htake]
    obtain ⟨rest, program, hcontinued⟩ := exists_parse_of_shifts hshifts
    exact ⟨rest, _, parseTree_eq_ok_iff.mpr ⟨program, hcontinued, rfl⟩⟩
  · rcases hcases with ⟨rfl, _⟩ | ⟨rest, rfl, hrefuse⟩
    · omega
    · have hnext : (before ++ e.token :: rest)[e.index]? = some e.token := by
        rw [hindex, List.getElem?_append_right (Nat.le_refl _), Nat.sub_self]
        rfl
      refine ⟨hnext, fun rest' tree htree => ?_⟩
      obtain ⟨program, hcontinued, _⟩ := parseTree_eq_ok_iff.mp htree
      rw [List.take_add_one, htake, hnext, Option.toList_some, List.append_assoc,
        List.singleton_append] at hcontinued
      exact parse_ne_ok_of_refuse hshifts hrefuse rest' program hcontinued
  · rcases hcases with ⟨rfl, hfault, htoken⟩ | ⟨rest, rfl, _⟩
    · exact ⟨by rw [hfault]; rfl, htoken⟩
    · rw [List.length_append, List.length_cons] at heq
      omega
  · have hunknown := SyntaxFault.message_eq_unknownStatement_iff.mp hmessage
    rcases hcases with ⟨_, hfault, _⟩ | ⟨_, _, hrefuse⟩
    · rw [hunknown] at hfault
      cases hfault
    · rw [hunknown] at hrefuse
      exact s.step_ne_unknownStatement e.token hrefuse

/-- The tokens of `while x { y = 1 + ; }`. -/
def unfinishedSum : List Token :=
  [⟨.whileWord, {}⟩, ⟨.ident "x", {}⟩, ⟨.openBrace, {}⟩, ⟨.ident "y", {}⟩, ⟨.assign, {}⟩,
    ⟨.number 1, {}⟩, ⟨.op '+', {}⟩, ⟨.delimiter, {}⟩, ⟨.closeBrace, {}⟩, ⟨.eof, {}⟩]

/-- The sum has no second operand, and the delimiter is blamed for it: what stands before begins a
program, and with the delimiter it does not. -/
theorem firstImpossible_unfinishedSum :
    parseTree 0 unfinishedSum = .error ⟨.unknownValue, ⟨.delimiter, {}⟩, 7⟩ ∧
    (∃ rest tree, parseTree 0 (unfinishedSum.take 7 ++ rest) = .ok tree) ∧
    ∀ rest tree, parseTree 0 (unfinishedSum.take 8 ++ rest) ≠ .ok tree := by
  have herror : parseTree 0 unfinishedSum = .error ⟨.unknownValue, ⟨.delimiter, {}⟩, 7⟩ := rfl
  obtain ⟨_, hbegins, himpossible, _⟩ := firstImpossible herror
  exact ⟨herror, hbegins, (himpossible (by decide)).2⟩

end Grammar

end BlockFlow
