import BlockFlow.Grammar.Recognizer

/-!
# Recognition does not see spans

A bare token has its lexeme and no place in any text.  Everything that holds tokens can be made bare
by making its tokens bare.  Recognition commutes with that: one token at a time
(`ParseState.step_bare`), and so for all tokens (`parse_bare`).  Lists of tokens that say the same
therefore spell the same program, up to spans, or are refused at the same token for the same reason.
-/

namespace BlockFlow

/-! ### Bare tokens and what holds them -/

/-- The token without its place in the text. -/
def Token.bare (t : Token) : Token :=
  ⟨t.lexeme, {}⟩

@[simp] theorem Token.kind_bare (t : Token) : t.bare.kind = t.kind := rfl

theorem map_bare_eq {tokens tokens' : List Token}
    (h : tokens.map Token.lexeme = tokens'.map Token.lexeme) :
    tokens.map Token.bare = tokens'.map Token.bare := by
  have hbare : ∀ ts : List Token,
      ts.map Token.bare = (ts.map Token.lexeme).map fun lexeme => ⟨lexeme, {}⟩ := by
    intro ts
    rw [List.map_map]
    rfl
  rw [hbare, hbare, h]

def Expression.bare (e : Expression) : Expression :=
  ⟨e.left.bare, e.tail.map fun tail => (tail.1.bare, tail.2.bare)⟩

namespace Statement

mutual

/-- The statement with bare tokens. -/
def bare : Statement → Statement
  | ret word value delimiter => ret word.bare value.bare delimiter.bare
  | assign target sign value delimiter => assign target.bare sign.bare value.bare delimiter.bare
  | cond word test opening thenBody closing elseWord elseOpening elseBody elseClosing =>
    cond word.bare test.bare opening.bare (bareAll thenBody) closing.bare elseWord.bare
      elseOpening.bare (bareAll elseBody) elseClosing.bare
  | loop word test opening body closing =>
    loop word.bare test.bare opening.bare (bareAll body) closing.bare

/-- The statements with bare tokens. -/
def bareAll : List Statement → List Statement
  | [] => []
  | s :: rest => s.bare :: bareAll rest

end

theorem bareAll_append (first second : List Statement) :
    bareAll (first ++ second) = bareAll first ++ bareAll second := by
  induction first with
  | nil => rfl
  | cons s rest ih => rw [List.cons_append, bareAll, ih, bareAll, List.cons_append]

end Statement

open Statement (bareAll bareAll_append)

def Head.bare : Head → Head
  | ret word => ret word.bare
  | assign target sign => assign target.bare sign.bare
  | cond word => cond word.bare
  | loop word => loop word.bare

def Frame.bare : Frame → Frame
  | thenBody before word test opening => thenBody (bareAll before) word.bare test.bare opening.bare
  | elseBody before word test opening firstArm closing elseWord elseOpening =>
    elseBody (bareAll before) word.bare test.bare opening.bare (bareAll firstArm) closing.bare
      elseWord.bare elseOpening.bare
  | loopBody before word test opening => loopBody (bareAll before) word.bare test.bare opening.bare

def Phase.bare : Phase → Phase
  | statement => statement
  | sign target => sign target.bare
  | operand head => operand head.bare
  | tail head left => tail head.bare left.bare
  | secondOperand head left op => secondOperand head.bare left.bare op.bare
  | closing head value => closing head.bare value.bare
  | elseWord word test opening thenBody brace =>
    elseWord word.bare test.bare opening.bare (bareAll thenBody) brace.bare
  | elseOpening word test opening thenBody brace word' =>
    elseOpening word.bare test.bare opening.bare (bareAll thenBody) brace.bare word'.bare

def ParseState.bare (s : ParseState) : ParseState :=
  ⟨s.frames.map Frame.bare, bareAll s.done, s.phase.bare⟩

def Move.bare : Move → Move
  | shift next => shift next.bare
  | accept program => accept (bareAll program)
  | refuse fault => refuse fault

def SyntaxError.bare (e : SyntaxError) : SyntaxError :=
  { e with token := e.token.bare }

/-! ### Recognition -/

/-- A token that is read on a condition and refused otherwise. -/
theorem Move.bare_ite (c : Prop) [Decidable c] (next : ParseState) (fault : SyntaxFault) :
    (if c then shift next else refuse fault).bare =
      if c then shift next.bare else refuse fault := by
  split
  · rfl
  · rfl

theorem ParseState.bare_append (frames : List Frame) (done : List Statement) (s : Statement) :
    (⟨frames, done ++ [s], .statement⟩ : ParseState).bare =
      ⟨frames.map Frame.bare, bareAll done ++ [s.bare], .statement⟩ := by
  rw [bare, bareAll_append]
  rfl

theorem Frame.close_bare (frame : Frame) (frames : List Frame) (body : List Statement)
    (brace : Token) :
    frame.bare.close (frames.map Frame.bare) (bareAll body) brace.bare =
      (frame.close frames body brace).bare := by
  cases frame with
  | thenBody before word test opening =>
    rw [close]
    rfl
  | elseBody before word test opening firstArm closing elseWord elseOpening =>
    rw [close, ParseState.bare_append]
    rfl
  | loopBody before word test opening =>
    rw [close, ParseState.bare_append]
    rfl

namespace ParseState

theorem closeExpression_bare (s : ParseState) (head : Head) (value : Expression) (t : Token) :
    s.bare.closeExpression head.bare value.bare t.bare =
      (s.closeExpression head value t).bare := by
  cases head with
  | ret word =>
    rw [closeExpression, Move.bare_ite, bare_append]
    rfl
  | assign target sign =>
    rw [closeExpression, Move.bare_ite, bare_append]
    rfl
  | cond word =>
    rw [closeExpression, Move.bare_ite]
    rfl
  | loop word =>
    rw [closeExpression, Move.bare_ite]
    rfl

theorem closeSequence_bare (s : ParseState) (t : Token) :
    s.bare.closeSequence t.bare = (s.closeSequence t).bare := by
  obtain ⟨frames, done, phase⟩ := s
  cases frames with
  | nil =>
    show (if t.kind = .eof then Move.accept (bareAll done) else .refuse .leftover) =
      (if t.kind = .eof then Move.accept done else .refuse .leftover).bare
    split
    · rfl
    · rfl
  | cons frame frames =>
    show (if t.kind = .closeBrace then
      Move.shift (frame.bare.close (frames.map Frame.bare) (bareAll done) t.bare) else _) = _
    rw [Frame.close_bare]
    exact (Move.bare_ite (t.kind = .closeBrace) _ _).symm

theorem openStatement_bare (s : ParseState) (t : Token) :
    s.bare.openStatement t.bare = (s.openStatement t).bare := by
  simp only [openStatement, Token.kind_bare]
  cases t.kind with
  | returnWord => rfl
  | ident => rfl
  | ifWord => rfl
  | whileWord => rfl
  | _ => rfl

/-- **Reading one more token does not see its span,** nor those of the tokens before. -/
theorem step_bare (s : ParseState) (t : Token) : s.bare.step t.bare = (s.step t).bare := by
  obtain ⟨frames, done, phase⟩ := s
  cases phase with
  | statement =>
    by_cases hkind : t.kind.startsStatement = true
    · simpa [step, bare, Phase.bare, hkind] using openStatement_bare ⟨frames, done, .statement⟩ t
    · simpa [step, bare, Phase.bare, hkind] using closeSequence_bare ⟨frames, done, .statement⟩ t
  | sign target =>
    by_cases hkind : t.kind = .assign
    · simp [step, bare, Phase.bare, Head.bare, Move.bare, hkind]
    · simp [step, bare, Phase.bare, Move.bare, hkind]
  | operand head =>
    by_cases hkind : isOperand t.kind = true
    · simp [step, bare, Phase.bare, Move.bare, hkind]
    · simp [step, bare, Phase.bare, Move.bare, hkind]
  | tail head left =>
    have hclose := closeExpression_bare ⟨frames, done, .tail head left⟩ head ⟨left, none⟩ t
    by_cases hkind : t.kind = .op
    · simp [step, bare, Phase.bare, Move.bare, hkind]
    · simpa [step, bare, Phase.bare, Expression.bare, hkind] using hclose
  | secondOperand head left op =>
    by_cases hkind : isOperand t.kind = true
    · simp [step, bare, Phase.bare, Expression.bare, Move.bare, hkind]
    · simp [step, bare, Phase.bare, Move.bare, hkind]
  | closing head value =>
    exact closeExpression_bare ⟨frames, done, .closing head value⟩ head value t
  | elseWord word test opening thenBody brace =>
    by_cases hkind : t.kind = .elseWord
    · simp [step, bare, Phase.bare, Move.bare, hkind]
    · simp [step, bare, Phase.bare, Move.bare, hkind]
  | elseOpening word test opening thenBody brace word' =>
    by_cases hkind : t.kind = .openBrace
    · simp [step, bare, Phase.bare, Frame.bare, bareAll, Move.bare, hkind]
    · simp [step, bare, Phase.bare, Move.bare, hkind]

/-- **Reading on to the end does not see spans.** -/
theorem run_bare (tokens : List Token) : ∀ (s : ParseState) (index : Nat) (last : Token),
    s.bare.run index last.bare (tokens.map Token.bare) =
      ((s.run index last tokens).map bareAll).mapError SyntaxError.bare := by
  induction tokens with
  | nil => exact fun s index last => rfl
  | cons t rest ih =>
    intro s index last
    rw [List.map_cons, run, run, step_bare]
    cases s.step t with
    | shift next => exact ih next (index + 1) t
    | accept program => rfl
    | refuse fault => rfl

end ParseState

/-- **What a list of tokens spells depends on what its tokens say,** and on nothing else. -/
theorem parse_bare (tokens : List Token) :
    parse (tokens.map Token.bare) = ((parse tokens).map bareAll).mapError SyntaxError.bare :=
  ParseState.run_bare tokens {} 0 {}

/-- Results that are equal when mapped are two errors or two values. -/
theorem alike_of_mapped_eq {ε ε' α α' : Type} {f : ε → ε'} {g : α → α'} {x x' : Except ε α}
    (h : (x.map g).mapError f = (x'.map g).mapError f) :
    (∃ e e', x = .error e ∧ x' = .error e' ∧ f e = f e') ∨
      ∃ a a', x = .ok a ∧ x' = .ok a' ∧ g a = g a' := by
  cases x with
  | error e =>
    cases x' with
    | error e' => exact .inl ⟨e, e', rfl, rfl, Except.error.inj h⟩
    | ok a' => cases h
  | ok a =>
    cases x' with
    | error e' => cases h
    | ok a' => exact .inr ⟨a, a', rfl, rfl, Except.ok.inj h⟩

/-- Lists of tokens that say the same are refused alike, or spell programs that are the same up to
spans. -/
theorem parse_alike {tokens tokens' : List Token}
    (h : tokens.map Token.lexeme = tokens'.map Token.lexeme) :
    (∃ e e', parse tokens = .error e ∧ parse tokens' = .error e' ∧ e.bare = e'.bare) ∨
      ∃ program program', parse tokens = .ok program ∧ parse tokens' = .ok program' ∧
        bareAll program = bareAll program' := by
  have hparse : ((parse tokens).map bareAll).mapError SyntaxError.bare =
      ((parse tokens').map bareAll).mapError SyntaxError.bare := by
    rw [← parse_bare, ← parse_bare, map_bare_eq h]
  exact alike_of_mapped_eq hparse

end BlockFlow
