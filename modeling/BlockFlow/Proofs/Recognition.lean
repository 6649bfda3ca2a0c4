import BlockFlow.Proofs.Grammar

/-!
# Recognition is the grammar

The recogniser takes one token at a time and never looks back.  Two facts tie it to the grammar.

Reading the tokens of proper statements carries it over those statements (`shifts_sequence`): from
any state in which a statement may begin, they are appended to the finished ones.

In the other direction, every state knows the tokens that led to it (`ParseState.tokens`), and they
stand in places that ask for their kinds (`ParseState.Proper`); a step adds the token it read, and
the step that accepts hands out a program that is spelt by all tokens read (`follows_step`).

Together they give the grammar exactly (`Grammar.parseTree_iff_derivation`): the recogniser accepts
what has a derivation, the derivation is unique, and it is the tree that is returned.
-/

namespace BlockFlow

open Statement (tokensAll ProperAll sequenceOutline)

/-! ### Sequences of statements -/

namespace Statement

@[simp] theorem tokensAll_append (first second : List Statement) :
    tokensAll (first ++ second) = tokensAll first ++ tokensAll second := by
  induction first with
  | nil => rfl
  | cons s rest ih => simp only [List.cons_append, tokensAll, ih, List.append_assoc]

@[simp] theorem properAll_append (first second : List Statement) :
    ProperAll (first ++ second) ↔ ProperAll first ∧ ProperAll second := by
  induction first with
  | nil => simp [ProperAll]
  | cons s rest ih => simp only [List.cons_append, ProperAll, ih, and_assoc]

end Statement

/-! ### Reading proper statements -/

namespace ParseState

/-- Reading the tokens takes one state to the other. -/
inductive Shifts : ParseState → List Token → ParseState → Prop where
  | nil (s : ParseState) : Shifts s [] s
  | cons {s s₁ s₂ : ParseState} {t : Token} {rest : List Token} (step : s.step t = .shift s₁)
      (others : Shifts s₁ rest s₂) : Shifts s (t :: rest) s₂

theorem Shifts.append {s s₁ s₂ : ParseState} {first second : List Token}
    (h : Shifts s first s₁) (h' : Shifts s₁ second s₂) : Shifts s (first ++ second) s₂ := by
  induction h with
  | nil => exact h'
  | cons step _ ih => exact .cons step (ih h')

theorem Shifts.single {s s₁ : ParseState} {t : Token} (step : s.step t = .shift s₁) :
    Shifts s [t] s₁ :=
  .cons step (.nil _)

/-- A run reads on from where the tokens lead. -/
theorem Shifts.run {s s₁ : ParseState} {tokens : List Token} (h : Shifts s tokens s₁)
    (index : Nat) (last : Token) : ∃ last₁, ∀ rest,
      s.run index last (tokens ++ rest) = s₁.run (index + tokens.length) last₁ rest := by
  induction h generalizing index last with
  | nil => exact ⟨last, fun rest => rfl⟩
  | @cons s s₁ s₂ t others step _ ih =>
    obtain ⟨last₁, hrun⟩ := ih (index + 1) t
    refine ⟨last₁, fun rest => ?_⟩
    rw [List.cons_append, ParseState.run, step]
    show ParseState.run s₁ (index + 1) t (others ++ rest) = _
    rw [hrun rest, List.length_cons, Nat.add_assoc, Nat.add_comm 1]

variable {frames : List Frame} {done : List Statement}

/-- Reading an expression and the token behind it closes the expression. -/
theorem shifts_expression {head : Head} {e : Expression} {t : Token} {s : ParseState}
    (he : e.Proper) (ht : t.kind ≠ .op)
    (hclose : closeExpression ⟨frames, done, .statement⟩ head e t = .shift s) :
    Shifts ⟨frames, done, .operand head⟩ (e.tokens ++ [t]) s := by
  obtain ⟨left, tail⟩ := e
  obtain ⟨hleft, htail⟩ := he
  have hfirst : step ⟨frames, done, .operand head⟩ left =
      .shift ⟨frames, done, .tail head left⟩ := by
    simp only [step]
    rw [if_pos hleft]
  cases tail with
  | none =>
    have hlast : step ⟨frames, done, .tail head left⟩ t = .shift s := by
      simp only [step]
      rw [if_neg ht]
      exact hclose
    exact .cons hfirst (.single hlast)
  | some tail =>
    obtain ⟨op, right⟩ := tail
    obtain ⟨hop, hright⟩ := htail op right rfl
    have hsecond : step ⟨frames, done, .tail head left⟩ op =
        .shift ⟨frames, done, .secondOperand head left op⟩ := by
      simp only [step]
      rw [if_pos hop]
    have hthird : step ⟨frames, done, .secondOperand head left op⟩ right =
        .shift ⟨frames, done, .closing head ⟨left, some (op, right)⟩⟩ := by
      simp only [step]
      rw [if_pos hright]
    exact .cons hfirst (.cons hsecond (.cons hthird (.single hclose)))

/-- No statement begins with a brace that closes, so it closes the innermost body. -/
theorem step_closeBrace {frame : Frame} {frames : List Frame} {done : List Statement}
    {brace : Token} (h : brace.kind = .closeBrace) :
    step ⟨frame :: frames, done, .statement⟩ brace = .shift (frame.close frames done brace) := by
  simp only [step, closeSequence, h, Kind.startsStatement, Bool.false_eq_true, ↓reduceIte]

mutual

/-- Reading a proper statement appends it to the finished ones. -/
theorem shifts_statement (frames : List Frame) (done : List Statement) :
    ∀ s : Statement, s.Proper →
      Shifts ⟨frames, done, .statement⟩ s.tokens ⟨frames, done ++ [s], .statement⟩
  | .ret word value delimiter, ⟨hword, hvalue, hdelimiter⟩ => by
    have hfirst : step ⟨frames, done, .statement⟩ word =
        .shift ⟨frames, done, .operand (.ret word)⟩ := by
      simp only [step, hword, Kind.startsStatement, ↓reduceIte, openStatement]
    have hclose : closeExpression ⟨frames, done, .statement⟩ (.ret word) value delimiter =
        .shift ⟨frames, done ++ [.ret word value delimiter], .statement⟩ := by
      simp only [closeExpression]
      rw [if_pos hdelimiter]
    exact .cons hfirst (shifts_expression hvalue (by rw [hdelimiter]; decide) hclose)
  | .assign target sign value delimiter, ⟨htarget, hsign, hvalue, hdelimiter⟩ => by
    have hfirst : step ⟨frames, done, .statement⟩ target =
        .shift ⟨frames, done, .sign target⟩ := by
      simp only [step, htarget, Kind.startsStatement, ↓reduceIte, openStatement]
    have hsecond : step ⟨frames, done, .sign target⟩ sign =
        .shift ⟨frames, done, .operand (.assign target sign)⟩ := by
      simp only [step]
      rw [if_pos hsign]
    have hclose : closeExpression ⟨frames, done, .statement⟩ (.assign target sign) value delimiter =
        .shift ⟨frames, done ++ [.assign target sign value delimiter], .statement⟩ := by
      simp only [closeExpression]
      rw [if_pos hdelimiter]
    exact .cons hfirst (.cons hsecond
      (shifts_expression hvalue (by rw [hdelimiter]; decide) hclose))
  | .cond word test opening thenBody closing elseWord elseOpening elseBody elseClosing,
      ⟨hword, htest, hopening, hthen, hclosing, helseWord, helseOpening, helse, helseClosing⟩ => by
    have hfirst : step ⟨frames, done, .statement⟩ word =
        .shift ⟨frames, done, .operand (.cond word)⟩ := by
      simp only [step, hword, Kind.startsStatement, ↓reduceIte, openStatement]
    have hopen : closeExpression ⟨frames, done, .statement⟩ (.cond word) test opening =
        .shift ⟨.thenBody done word test opening :: frames, [], .statement⟩ := by
      simp only [closeExpression]
      rw [if_pos hopening]
    have hhead := shifts_expression htest (by rw [hopening]; decide) hopen
    -- An arm is read on its own; its frame keeps what was read before it.
    have hbody := shifts_sequence (.thenBody done word test opening :: frames) [] thenBody hthen
    have hend :
        step ⟨.thenBody done word test opening :: frames, [] ++ thenBody, .statement⟩ closing
          = .shift ⟨frames, done, .elseWord word test opening thenBody closing⟩ := by
      rw [step_closeBrace hclosing]
      rfl
    have helse₁ : step ⟨frames, done, .elseWord word test opening thenBody closing⟩ elseWord =
        .shift ⟨frames, done, .elseOpening word test opening thenBody closing elseWord⟩ := by
      simp only [step]
      rw [if_pos helseWord]
    have helse₂ : step ⟨frames, done, .elseOpening word test opening thenBody closing elseWord⟩
        elseOpening = .shift ⟨.elseBody done word test opening thenBody closing elseWord elseOpening
          :: frames, [], .statement⟩ := by
      simp only [step]
      rw [if_pos helseOpening]
    have hbody₂ := shifts_sequence (.elseBody done word test opening thenBody closing elseWord
      elseOpening :: frames) [] elseBody helse
    have hend₂ : step ⟨.elseBody done word test opening thenBody closing elseWord elseOpening
          :: frames, [] ++ elseBody, .statement⟩ elseClosing =
        .shift ⟨frames, done ++ [.cond word test opening thenBody closing elseWord elseOpening
          elseBody elseClosing], .statement⟩ := by
      rw [step_closeBrace helseClosing]
      rfl
    have hthens := hhead.append (hbody.append (.single hend))
    have helses := Shifts.cons helse₁ (.cons helse₂ (hbody₂.append (.single hend₂)))
    have hall := Shifts.cons hfirst (hthens.append helses)
    simpa only [Statement.tokens, List.append_assoc, List.cons_append, List.nil_append] using hall
  | .loop word test opening body closing, ⟨hword, htest, hopening, hbody, hclosing⟩ => by
    have hfirst : step ⟨frames, done, .statement⟩ word =
        .shift ⟨frames, done, .operand (.loop word)⟩ := by
      simp only [step, hword, Kind.startsStatement, ↓reduceIte, openStatement]
    have hopen : closeExpression ⟨frames, done, .statement⟩ (.loop word) test opening =
        .shift ⟨.loopBody done word test opening :: frames, [], .statement⟩ := by
      simp only [closeExpression]
      rw [if_pos hopening]
    have hhead := shifts_expression htest (by rw [hopening]; decide) hopen
    have hinner := shifts_sequence (.loopBody done word test opening :: frames) [] body hbody
    have hend : step ⟨.loopBody done word test opening :: frames, [] ++ body, .statement⟩ closing =
        .shift ⟨frames, done ++ [.loop word test opening body closing], .statement⟩ := by
      rw [step_closeBrace hclosing]
      rfl
    have hall := Shifts.cons hfirst (hhead.append (hinner.append (.single hend)))
    simpa only [Statement.tokens, List.append_assoc, List.singleton_append] using hall

/-- **Reading proper statements appends them to the finished ones.** -/
theorem shifts_sequence (frames : List Frame) (done : List Statement) :
    ∀ program : List Statement, ProperAll program →
      Shifts ⟨frames, done, .statement⟩ (tokensAll program)
        ⟨frames, done ++ program, .statement⟩
  | [], _ => by
    rw [List.append_nil]
    exact .nil _
  | s :: rest, ⟨hs, hrest⟩ => by
    have hall := (shifts_statement frames done s hs).append
      (shifts_sequence frames (done ++ [s]) rest hrest)
    rwa [List.append_assoc, List.singleton_append] at hall

end

end ParseState

/-! ### What a state has read -/

namespace Head

/-- The tokens of the head of a statement. -/
def tokens : Head → List Token
  | ret word | cond word | loop word => [word]
  | assign target sign => [target, sign]

/-- The tokens of a head have the right kinds. -/
def Proper : Head → Prop
  | ret word => word.kind = .returnWord
  | assign target sign => target.kind = .ident ∧ sign.kind = .assign
  | cond word => word.kind = .ifWord
  | loop word => word.kind = .whileWord

end Head

namespace Frame

/-- The tokens of an open statement up to the start of its innermost body, with those of the
statements before it. -/
def tokens : Frame → List Token
  | thenBody before word test opening | loopBody before word test opening =>
    tokensAll before ++ word :: (test.tokens ++ [opening])
  | elseBody before word test opening firstArm closing elseWord elseOpening =>
    tokensAll before ++ word :: (test.tokens ++ opening :: (tokensAll firstArm ++
      [closing, elseWord, elseOpening]))

/-- The tokens of an open statement have the right kinds. -/
def Proper : Frame → Prop
  | thenBody before word test opening =>
    ProperAll before ∧ word.kind = .ifWord ∧ test.Proper ∧ opening.kind = .openBrace
  | elseBody before word test opening firstArm closing elseWord elseOpening =>
    ProperAll before ∧ word.kind = .ifWord ∧ test.Proper ∧ opening.kind = .openBrace ∧
    ProperAll firstArm ∧ closing.kind = .closeBrace ∧ elseWord.kind = .elseWord ∧
    elseOpening.kind = .openBrace
  | loopBody before word test opening =>
    ProperAll before ∧ word.kind = .whileWord ∧ test.Proper ∧ opening.kind = .openBrace

/-- The tokens of open statements, of which the innermost comes first. -/
def allTokens : List Frame → List Token
  | [] => []
  | frame :: frames => allTokens frames ++ frame.tokens

end Frame

namespace Phase

/-- The tokens of the statement that has been begun. -/
def tokens : Phase → List Token
  | statement => []
  | sign target => [target]
  | operand head => head.tokens
  | tail head left => head.tokens ++ [left]
  | secondOperand head left op => head.tokens ++ [left, op]
  | closing head value => head.tokens ++ value.tokens
  | elseWord word test opening thenBody brace =>
    word :: (test.tokens ++ opening :: (tokensAll thenBody ++ [brace]))
  | elseOpening word test opening thenBody brace word₂ =>
    word :: (test.tokens ++ opening :: (tokensAll thenBody ++ [brace, word₂]))

/-- The tokens of the statement that has been begun have the right kinds. -/
def Proper : Phase → Prop
  | statement => True
  | sign target => target.kind = .ident
  | operand head => head.Proper
  | tail head left => head.Proper ∧ ParseState.isOperand left.kind
  | secondOperand head left op =>
    head.Proper ∧ ParseState.isOperand left.kind ∧ op.kind = .op
  | closing head value => head.Proper ∧ value.Proper
  | elseWord word test opening thenBody brace =>
    word.kind = .ifWord ∧ test.Proper ∧ opening.kind = .openBrace ∧ ProperAll thenBody ∧
    brace.kind = .closeBrace
  | elseOpening word test opening thenBody brace word₂ =>
    word.kind = .ifWord ∧ test.Proper ∧ opening.kind = .openBrace ∧ ProperAll thenBody ∧
    brace.kind = .closeBrace ∧ word₂.kind = .elseWord

@[simp] theorem tokens_statement : tokens statement = [] := rfl

end Phase

namespace ParseState

/-- All tokens read so far. -/
def tokens (s : ParseState) : List Token :=
  Frame.allTokens s.frames ++ (tokensAll s.done ++ s.phase.tokens)

/-- All tokens read so far have the right kinds for their places. -/
structure Proper (s : ParseState) : Prop where
  /-- Those of the open statements. -/
  frames : ∀ frame ∈ s.frames, frame.Proper
  /-- Those of the finished statements. -/
  done : ProperAll s.done
  /-- Those of the statement that has been begun. -/
  phase : s.phase.Proper

theorem Proper.initial : Proper {} :=
  ⟨by simp, trivial, trivial⟩

/-- What a token may lead to.  A token that is read is added to the tokens read so far, in a place
that asks for its kind; a token that ends the program is the end marker, and the program is spelt by
the tokens read before it. -/
def Follows (s : ParseState) (t : Token) : Move → Prop
  | .shift s' => s'.Proper ∧ s'.tokens = s.tokens ++ [t]
  | .accept program => t.kind = .eof ∧ ProperAll program ∧ tokensAll program = s.tokens
  | .refuse _ => True

/-- Frames stay proper when a proper one is put on top. -/
theorem proper_cons {frame : Frame} {frames : List Frame} (hframe : frame.Proper)
    (hframes : ∀ frame ∈ frames, frame.Proper) : ∀ f ∈ frame :: frames, f.Proper := by
  intro f hf
  rcases List.mem_cons.mp hf with rfl | hf
  · exact hframe
  · exact hframes f hf

theorem follows_closeExpression {s : ParseState} {head : Head} {e : Expression} {t : Token}
    (hframes : ∀ frame ∈ s.frames, frame.Proper) (hdone : ProperAll s.done) (hhead : head.Proper)
    (he : e.Proper) (htokens : s.phase.tokens = head.tokens ++ e.tokens) :
    s.Follows t (s.closeExpression head e t) := by
  cases head with
  | ret word =>
    simp only [closeExpression]
    split
    · rename_i ht
      refine ⟨⟨hframes, ?_, trivial⟩, ?_⟩
      · simp only [Statement.properAll_append, ProperAll, Statement.Proper, and_true]
        exact ⟨hdone, hhead, he, ht⟩
      · simp [tokens, htokens, Head.tokens, Statement.tokens, tokensAll]
    · trivial
  | assign target sign =>
    simp only [closeExpression]
    split
    · rename_i ht
      refine ⟨⟨hframes, ?_, trivial⟩, ?_⟩
      · simp only [Statement.properAll_append, ProperAll, Statement.Proper, and_true]
        exact ⟨hdone, hhead.1, hhead.2, he, ht⟩
      · simp [tokens, htokens, Head.tokens, Statement.tokens, tokensAll]
    · trivial
  | cond word =>
    simp only [closeExpression]
    split
    · rename_i ht
      refine ⟨⟨proper_cons ⟨hdone, hhead, he, ht⟩ hframes, trivial, trivial⟩, ?_⟩
      simp [tokens, htokens, Head.tokens, Frame.allTokens, Frame.tokens, tokensAll]
    · trivial
  | loop word =>
    simp only [closeExpression]
    split
    · rename_i ht
      refine ⟨⟨proper_cons ⟨hdone, hhead, he, ht⟩ hframes, trivial, trivial⟩, ?_⟩
      simp [tokens, htokens, Head.tokens, Frame.allTokens, Frame.tokens, tokensAll]
    · trivial

/-- Closing the innermost body adds the brace that closes it. -/
theorem close_proper {frame : Frame} {frames : List Frame} {body : List Statement} {brace : Token}
    (hframe : frame.Proper) (hframes : ∀ frame ∈ frames, frame.Proper) (hbody : ProperAll body)
    (hbrace : brace.kind = .closeBrace) :
    (frame.close frames body brace).Proper ∧
    (frame.close frames body brace).tokens =
      Frame.allTokens (frame :: frames) ++ tokensAll body ++ [brace] := by
  cases frame with
  | thenBody before word test opening =>
    obtain ⟨hbefore, hword, htest, hopening⟩ := hframe
    refine ⟨⟨hframes, hbefore, hword, htest, hopening, hbody, hbrace⟩, ?_⟩
    simp [Frame.close, tokens, Phase.tokens, Frame.allTokens, Frame.tokens]
  | elseBody before word test opening firstArm closing elseWord elseOpening =>
    obtain ⟨hbefore, hword, htest, hopening, hfirst, hclosing, helseWord, helseOpening⟩ := hframe
    refine ⟨⟨hframes, ?_, trivial⟩, ?_⟩
    · simp only [Frame.close, Statement.properAll_append, ProperAll, Statement.Proper, and_true]
      exact ⟨hbefore, hword, htest, hopening, hfirst, hclosing, helseWord, helseOpening, hbody,
        hbrace⟩
    · simp [Frame.close, tokens, Phase.tokens, Frame.allTokens, Frame.tokens, tokensAll,
        Statement.tokens]
  | loopBody before word test opening =>
    obtain ⟨hbefore, hword, htest, hopening⟩ := hframe
    refine ⟨⟨hframes, ?_, trivial⟩, ?_⟩
    · simp only [Frame.close, Statement.properAll_append, ProperAll, Statement.Proper, and_true]
      exact ⟨hbefore, hword, htest, hopening, hbody, hbrace⟩
    · simp [Frame.close, tokens, Phase.tokens, Frame.allTokens, Frame.tokens, tokensAll,
        Statement.tokens]

theorem follows_closeSequence {s : ParseState} (h : s.Proper) (hphase : s.phase = .statement)
    (t : Token) : s.Follows t (s.closeSequence t) := by
  have htokens : s.tokens = Frame.allTokens s.frames ++ tokensAll s.done := by
    simp [tokens, hphase]
  unfold closeSequence
  split
  · rename_i hframes
    split
    · rename_i ht
      exact ⟨ht, h.done, by rw [htokens, hframes]; rfl⟩
    · trivial
  · rename_i frame frames hframes
    split
    · rename_i ht
      have hproper := h.frames
      rw [hframes] at hproper
      have hclose := close_proper (hproper frame (List.mem_cons_self ..))
        (fun f hf => hproper f (List.mem_cons_of_mem _ hf)) h.done ht
      exact ⟨hclose.1, by rw [hclose.2, htokens, hframes]⟩
    · trivial

theorem follows_openStatement {s : ParseState} (h : s.Proper) (hphase : s.phase = .statement)
    (t : Token) : s.Follows t (s.openStatement t) := by
  have htokens : s.tokens = Frame.allTokens s.frames ++ tokensAll s.done := by
    simp [tokens, hphase]
  unfold openStatement
  split
  · rename_i ht
    exact ⟨⟨h.frames, h.done, ht⟩, by rw [htokens]; simp [tokens, Phase.tokens, Head.tokens]⟩
  · rename_i ht
    exact ⟨⟨h.frames, h.done, ht⟩, by rw [htokens]; simp [tokens, Phase.tokens]⟩
  · rename_i ht
    exact ⟨⟨h.frames, h.done, ht⟩, by rw [htokens]; simp [tokens, Phase.tokens, Head.tokens]⟩
  · rename_i ht
    exact ⟨⟨h.frames, h.done, ht⟩, by rw [htokens]; simp [tokens, Phase.tokens, Head.tokens]⟩
  · trivial

/-- **One more token leads to what it may lead to.** -/
theorem follows_step {s : ParseState} (h : s.Proper) (t : Token) : s.Follows t (s.step t) := by
  have hstatement := follows_openStatement h
  have hsequence := follows_closeSequence h
  obtain ⟨frames, done, phase⟩ := s
  obtain ⟨hframes, hdone, hphase⟩ := h
  cases phase with
  | statement =>
    -- A token that begins no statement has to end a sequence.
    simp only [step]
    split
    · exact hstatement rfl t
    · exact hsequence rfl t
  | sign target =>
    simp only [step]
    split
    · rename_i ht
      exact ⟨⟨hframes, hdone, hphase, ht⟩, by simp [tokens, Phase.tokens, Head.tokens]⟩
    · trivial
  | operand head =>
    simp only [step]
    split
    · rename_i ht
      exact ⟨⟨hframes, hdone, hphase, ht⟩, by simp [tokens, Phase.tokens]⟩
    · trivial
  | tail head left =>
    simp only [step]
    split
    · rename_i ht
      exact ⟨⟨hframes, hdone, hphase.1, hphase.2, ht⟩, by simp [tokens, Phase.tokens]⟩
    · exact follows_closeExpression hframes hdone hphase.1
        ⟨hphase.2, fun _ _ htail => by cases htail⟩ rfl
  | secondOperand head left op =>
    simp only [step]
    split
    · rename_i ht
      obtain ⟨hhead, hleft, hop⟩ := hphase
      refine ⟨⟨hframes, hdone, hhead, hleft, ?_⟩, by simp [tokens, Phase.tokens, Expression.tokens]⟩
      rintro _ _ ⟨⟩
      exact ⟨hop, ht⟩
    · trivial
  | closing head value => exact follows_closeExpression hframes hdone hphase.1 hphase.2 rfl
  | elseWord word test opening thenBody closing =>
    simp only [step]
    split
    · rename_i ht
      obtain ⟨hword, htest, hopening, hthen, hclosing⟩ := hphase
      exact ⟨⟨hframes, hdone, hword, htest, hopening, hthen, hclosing, ht⟩,
        by simp [tokens, Phase.tokens]⟩
    · trivial
  | elseOpening word test opening thenBody closing elseWord =>
    simp only [step]
    split
    · rename_i ht
      obtain ⟨hword, htest, hopening, hthen, hclosing, helseWord⟩ := hphase
      refine ⟨⟨proper_cons ⟨hdone, hword, htest, hopening, hthen, hclosing, helseWord, ht⟩ hframes,
        trivial, trivial⟩, ?_⟩
      simp [tokens, Phase.tokens, Frame.allTokens, Frame.tokens, tokensAll]
    · trivial

/-- **A run that succeeds has read a program and the end marker.** -/
theorem tokens_of_run_eq_ok {s : ParseState} (h : s.Proper) {index : Nat} {last : Token}
    {tokens : List Token} {program : List Statement}
    (hrun : s.run index last tokens = .ok program) :
    ∃ before mark after, tokens = before ++ mark :: after ∧ mark.kind = .eof ∧
      ProperAll program ∧ tokensAll program = s.tokens ++ before := by
  induction tokens generalizing s index last with
  | nil => cases hrun
  | cons t rest ih =>
    have hstep := follows_step h t
    rw [run] at hrun
    split at hrun
    · rename_i s' hs'
      rw [hs'] at hstep
      obtain ⟨before, mark, after, rfl, hmark, hproper, htokens⟩ := ih hstep.1 hrun
      refine ⟨t :: before, mark, after, rfl, hmark, hproper, ?_⟩
      rw [htokens, hstep.2, List.append_assoc, List.singleton_append]
    · rename_i program' hs'
      rw [hs'] at hstep
      cases hrun
      exact ⟨[], t, rest, rfl, hstep.1, hstep.2.1, by rw [hstep.2.2, List.append_nil]⟩
    · cases hrun

end ParseState

/-! ### Programs and their tokens -/

/-- **The recogniser accepts programs.**  It accepts the tokens of proper statements and an end
marker behind them, and nothing else; what it hands out are those statements. -/
theorem parse_eq_ok_iff {tokens : List Token} {program : List Statement} :
    parse tokens = .ok program ↔ ∃ mark after,
      tokens = tokensAll program ++ mark :: after ∧ mark.kind = .eof ∧ ProperAll program := by
  constructor
  · intro h
    obtain ⟨before, mark, after, rfl, hmark, hproper, htokens⟩ :=
      ParseState.tokens_of_run_eq_ok .initial h
    exact ⟨mark, after, by rw [htokens]; rfl, hmark, hproper⟩
  · rintro ⟨mark, after, rfl, hmark, hproper⟩
    have hshifts := ParseState.shifts_sequence [] [] program hproper
    obtain ⟨last, hrun⟩ := hshifts.run 0 {}
    have haccept : ParseState.step ⟨[], [] ++ program, .statement⟩ mark = .accept program := by
      simp [ParseState.step, hmark, Kind.startsStatement, ParseState.closeSequence]
    show ParseState.run ⟨[], [], .statement⟩ 0 {} _ = _
    rw [hrun, ParseState.run, haccept]

namespace Statement

theorem kind_ne_eof_of_expression {e : Expression} (h : e.Proper) :
    ∀ t ∈ e.tokens, t.kind ≠ .eof := by
  have hoperand : ∀ t : Token, ParseState.isOperand t.kind → t.kind ≠ .eof := by
    intro t ht heof
    rw [heof] at ht
    cases ht
  obtain ⟨left, _ | ⟨op, right⟩⟩ := e
  · simpa [Expression.tokens] using hoperand left h.1
  · obtain ⟨hop, hright⟩ := h.2 op right rfl
    simpa [Expression.tokens, hop] using ⟨hoperand left h.1, hoperand right hright⟩

mutual

theorem kind_ne_eof : ∀ s : Statement, s.Proper → ∀ t ∈ s.tokens, t.kind ≠ .eof
  | .ret word value delimiter, ⟨hword, hvalue, hdelimiter⟩ => by
    simpa [tokens, or_imp, forall_and, hword, hdelimiter] using kind_ne_eof_of_expression hvalue
  | .assign target sign value delimiter, ⟨htarget, hsign, hvalue, hdelimiter⟩ => by
    simpa [tokens, or_imp, forall_and, htarget, hsign, hdelimiter]
      using kind_ne_eof_of_expression hvalue
  | .cond word test opening thenBody closing elseWord elseOpening elseBody elseClosing,
      ⟨hword, htest, hopening, hthen, hclosing, helseWord, helseOpening, helse, helseClosing⟩ => by
    simpa [tokens, or_imp, forall_and, hword, hopening, hclosing, helseWord, helseOpening,
      helseClosing] using
      ⟨kind_ne_eof_of_expression htest, kind_ne_eof_all thenBody hthen,
        kind_ne_eof_all elseBody helse⟩
  | .loop word test opening body closing, ⟨hword, htest, hopening, hbody, hclosing⟩ => by
    simpa [tokens, or_imp, forall_and, hword, hopening, hclosing] using
      ⟨kind_ne_eof_of_expression htest, kind_ne_eof_all body hbody⟩

/-- No token of proper statements is an end marker. -/
theorem kind_ne_eof_all : ∀ program : List Statement, ProperAll program →
    ∀ t ∈ tokensAll program, t.kind ≠ .eof
  | [], _ => by simp [tokensAll]
  | s :: rest, ⟨hs, hrest⟩ => by
    simpa [tokensAll, or_imp, forall_and] using ⟨kind_ne_eof s hs, kind_ne_eof_all rest hrest⟩

end

end Statement

/-- The tokens before the first end marker. -/
def beforeMark (tokens : List Token) : List Token :=
  tokens.takeWhile fun t => t.kind ≠ .eof

/-- Behind tokens that are no end marker, the first end marker is where it stands. -/
theorem beforeMark_append {before after : List Token} {mark : Token}
    (h : ∀ t ∈ before, t.kind ≠ .eof) (hmark : mark.kind = .eof) :
    beforeMark (before ++ mark :: after) = before := by
  unfold beforeMark
  rw [List.takeWhile_append_of_pos (by simpa using h), List.takeWhile_cons_of_neg (by simp [hmark]),
    List.append_nil]

/-- Tokens among which there is an end marker fall into those before the first one, the marker, and
those behind it. -/
theorem eq_beforeMark_append {tokens : List Token} (h : ∃ t ∈ tokens, t.kind = .eof) :
    ∃ mark after, tokens = beforeMark tokens ++ mark :: after ∧ mark.kind = .eof := by
  induction tokens with
  | nil => obtain ⟨_, hmem, _⟩ := h; cases hmem
  | cons t rest ih =>
    by_cases ht : t.kind = .eof
    · exact ⟨t, rest, by simp [beforeMark, ht], ht⟩
    · have hrest : ∃ t ∈ rest, t.kind = .eof := by
        obtain ⟨u, hu, hkind⟩ := h
        rcases List.mem_cons.mp hu with rfl | hu
        · exact absurd hkind ht
        · exact ⟨u, hu, hkind⟩
      obtain ⟨mark, after, heq, hmark⟩ := ih hrest
      refine ⟨mark, after, ?_, hmark⟩
      have hbefore : beforeMark (t :: rest) = t :: beforeMark rest := by simp [beforeMark, ht]
      rw [hbefore, List.cons_append, ← heq]

/-- The program is spelt by what stands before the first end marker. -/
theorem parse_eq_ok_iff_beforeMark {tokens : List Token} {program : List Statement} :
    parse tokens = .ok program ↔
      (∃ t ∈ tokens, t.kind = .eof) ∧ ProperAll program ∧
        tokensAll program = beforeMark tokens := by
  rw [parse_eq_ok_iff]
  constructor
  · rintro ⟨mark, after, rfl, hmark, hproper⟩
    exact ⟨⟨mark, by simp, hmark⟩, hproper,
      (beforeMark_append (Statement.kind_ne_eof_all program hproper) hmark).symm⟩
  · rintro ⟨hmark, hproper, htokens⟩
    obtain ⟨mark, after, heq, hmark⟩ := eq_beforeMark_append hmark
    exact ⟨mark, after, by rw [htokens]; exact heq, hmark, hproper⟩

/-! ### The tree that is returned -/

/-- The tokens of the leaves of the source in a tree, from left to right. -/
def Node.leaves (n : Node) : List Token :=
  n.preorder.filterMap fun m => if m.rule = .term then m.token else none

mutual

/-- Numbering keeps the leaves. -/
theorem Outline.filterMap_visits_number (parent : Option Node) : ∀ (d : Outline) (last : Nat),
    (((d.number last).1.visits (fun _ => true) parent).map Prod.fst).filterMap
      (fun m => if m.rule = .term then m.token else none) = d.leaves
  | ⟨rule, token, children⟩, last => by
    have hchildren := Outline.filterMap_visitsAll_numberAll
      ⟨(Outline.numberAll last children).2 + 1, rule, token, (Outline.numberAll last children).1⟩
      children last
    simp only [Outline.number, Node.visits, Outline.leaves, ↓reduceIte, List.map_cons]
    by_cases hrule : rule = .term
    · cases token with
      | none => simpa [hrule] using hchildren
      | some t => simpa [hrule] using hchildren
    · simpa [hrule] using hchildren

theorem Outline.filterMap_visitsAll_numberAll (parent : Node) : ∀ (ds : List Outline) (last : Nat),
    ((Node.visitsAll (fun _ => true) parent (Outline.numberAll last ds).1).map Prod.fst).filterMap
      (fun m => if m.rule = .term then m.token else none) = Outline.leavesAll ds
  | [], last => rfl
  | d :: rest, last => by
    simp only [Outline.numberAll, Node.visitsAll, Outline.leavesAll, List.map_append,
      List.filterMap_append]
    rw [Outline.filterMap_visits_number (some parent) d last,
      Outline.filterMap_visitsAll_numberAll parent rest]

end

theorem Outline.leaves_number (d : Outline) (last : Nat) : (d.number last).1.leaves = d.leaves :=
  Outline.filterMap_visits_number none d last

namespace Grammar

/-- The tree is a derivation of the tokens from the sequence. -/
def IsDerivation (d : Outline) (tokens : List Token) : Prop :=
  Derives (.rule .sequence) d ∧ d.leaves = tokens

/-- A derivation of tokens is the tree of proper statements that are spelt by the tokens. -/
theorem isDerivation_iff {d : Outline} {tokens : List Token} : IsDerivation d tokens ↔
    ∃ program, ProperAll program ∧ tokensAll program = tokens ∧ d = sequenceOutline program := by
  unfold IsDerivation
  rw [derives_sequence_iff]
  constructor
  · rintro ⟨⟨program, hproper, rfl⟩, htokens⟩
    exact ⟨program, hproper, by rw [← htokens, Statement.leaves_sequenceOutline], rfl⟩
  · rintro ⟨program, hproper, rfl, rfl⟩
    exact ⟨⟨program, hproper, rfl⟩, Statement.leaves_sequenceOutline program⟩

/-- **The grammar is unambiguous.**  The recogniser reads both derivations from the same tokens, so
they are the same. -/
theorem IsDerivation.unique {d d' : Outline} {tokens : List Token} (h : IsDerivation d tokens)
    (h' : IsDerivation d' tokens) : d = d' := by
  obtain ⟨program, hproper, htokens, rfl⟩ := isDerivation_iff.mp h
  obtain ⟨program', hproper', htokens', rfl⟩ := isDerivation_iff.mp h'
  have hparse : parse (tokens ++ [⟨.eof, {}⟩]) = .ok program :=
    parse_eq_ok_iff.mpr ⟨⟨.eof, {}⟩, [], by rw [htokens], rfl, hproper⟩
  have hparse' : parse (tokens ++ [⟨.eof, {}⟩]) = .ok program' :=
    parse_eq_ok_iff.mpr ⟨⟨.eof, {}⟩, [], by rw [htokens'], rfl, hproper'⟩
  rw [hparse] at hparse'
  cases hparse'
  rfl

/-- Tokens have a tree exactly if they are a program, and then it is the tree of that program. -/
theorem parseTree_eq_ok_iff {last : Nat} {tokens : List Token} {tree : Node × Nat} :
    parseTree last tokens = .ok tree ↔
      ∃ program, parse tokens = .ok program ∧ tree = (sequenceOutline program).number last := by
  unfold parseTree
  cases parse tokens with
  | error e => simp [Except.map]
  | ok program => simp [Except.map, eq_comm]

/-- **Recognition is the grammar.**  Tokens have a tree exactly if there is an end marker among them
and the tokens before the first one have a derivation from the sequence.  The derivation is unique,
the tree is that derivation with its nodes numbered, and its leaves are the tokens before the first
end marker, in their order. -/
theorem parseTree_iff_derivation (last : Nat) (tokens : List Token) :
    ((∃ tree, parseTree last tokens = .ok tree) ↔
      (∃ t ∈ tokens, t.kind = .eof) ∧ ∃ d, IsDerivation d (beforeMark tokens)) ∧
    (∀ d d', IsDerivation d (beforeMark tokens) → IsDerivation d' (beforeMark tokens) → d = d') ∧
    (∀ tree, parseTree last tokens = .ok tree →
      (∃ d, IsDerivation d (beforeMark tokens) ∧ tree = d.number last) ∧
      tree.1.leaves = beforeMark tokens) := by
  have htree : ∀ tree, parseTree last tokens = .ok tree → (∃ t ∈ tokens, t.kind = .eof) ∧
      ∃ d, IsDerivation d (beforeMark tokens) ∧ tree = d.number last := by
    intro tree h
    obtain ⟨program, hparse, rfl⟩ := parseTree_eq_ok_iff.mp h
    obtain ⟨hmark, hproper, htokens⟩ := parse_eq_ok_iff_beforeMark.mp hparse
    exact ⟨hmark, _, isDerivation_iff.mpr ⟨program, hproper, htokens, rfl⟩, rfl⟩
  refine ⟨⟨?_, ?_⟩, fun d d' h h' => h.unique h', ?_⟩
  · rintro ⟨tree, h⟩
    obtain ⟨hmark, d, hd, -⟩ := htree tree h
    exact ⟨hmark, d, hd⟩
  · rintro ⟨hmark, d, hd⟩
    obtain ⟨program, hproper, htokens, rfl⟩ := isDerivation_iff.mp hd
    have hparse := parse_eq_ok_iff_beforeMark.mpr ⟨hmark, hproper, htokens⟩
    exact ⟨_, parseTree_eq_ok_iff.mpr ⟨program, hparse, rfl⟩⟩
  · intro tree h
    obtain ⟨-, d, hd, rfl⟩ := htree tree h
    exact ⟨⟨d, hd, rfl⟩, by rw [Outline.leaves_number, hd.2]⟩

end Grammar

end BlockFlow
