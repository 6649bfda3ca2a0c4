import BlockFlow.Grammar.Statement

/-!
# Recognising programs

The grammar can be recognised one token at a time.  What has been read so far is a `ParseState`: the
bodies that are still open, the finished statements of the innermost one, and the part of a
statement that has been begun.  `ParseState.step` takes one more token, and either moves on, or
accepts at the end marker, or refuses the token.

Each token is looked at once and a refused token is the first that no program can continue with.
When the tokens run out before the end marker, the last token is blamed.
-/

namespace BlockFlow

/-! ### Errors -/

/-- What is wrong with a list of tokens. -/
inductive SyntaxFault where
  /-- Only a token of this kind could have continued the program. -/
  | expected (kind : Kind)
  /-- No statement begins with the token. -/
  | unknownStatement
  /-- An operand was needed. -/
  | unknownValue
  /-- The program is over, but there are more tokens. -/
  | leftover
  /-- The tokens ran out before the end marker. -/
  | exhausted
deriving DecidableEq, Repr, Inhabited

namespace SyntaxFault

/-- The wording of what is wrong. -/
def message : SyntaxFault → String
  | expected kind => "unexpected token type, expected " ++ kind.name
  | unknownStatement => "unknown statement"
  | unknownValue => "unknown value"
  | leftover => "not all tokens were parsed"
  | exhausted => "no tokens left to peek"

end SyntaxFault

/-- A fault and the token to blame for it. -/
structure SyntaxError where
  /-- What is wrong. -/
  fault : SyntaxFault
  /-- The token that is blamed. -/
  token : Token
  /-- How many tokens were read before the fault was found. -/
  index : Nat
deriving DecidableEq, Repr, Inhabited

namespace SyntaxError

/-- What is wrong and where, without the words that introduce a diagnostic. -/
def detail (e : SyntaxError) : String :=
  e.fault.message ++ " at token " ++ e.token.text

/-- The full diagnostic. -/
def message (e : SyntaxError) : String :=
  "syntax error, " ++ e.detail

/-- Where the blamed token begins. -/
def position (e : SyntaxError) : Position :=
  e.token.span.start

end SyntaxError

/-! ### What has been read so far -/

/-- A statement of which everything before its expression has been read. -/
inductive Head where
  | ret (word : Token)
  | assign (target sign : Token)
  | cond (word : Token)
  | loop (word : Token)
deriving DecidableEq, Repr, Inhabited

/-- A statement of which a body is being read, with the statements that stand before it in its own
sequence. -/
inductive Frame where
  | thenBody (before : List Statement) (word : Token) (test : Expression) (opening : Token)
  | elseBody (before : List Statement) (word : Token) (test : Expression) (opening : Token)
      (thenBody : List Statement) (closing elseWord elseOpening : Token)
  | loopBody (before : List Statement) (word : Token) (test : Expression) (opening : Token)
deriving Repr, Inhabited

/-- The part of a statement that has been begun, which says what may come next. -/
inductive Phase where
  /-- No statement has been begun: one may begin, or the sequence may end. -/
  | statement
  /-- The target of an assignment: its sign comes next. -/
  | sign (target : Token)
  /-- The head of a statement: the first operand of its expression comes next. -/
  | operand (head : Head)
  /-- A first operand: an operator comes next, or the expression is over. -/
  | tail (head : Head) (left : Token)
  /-- A first operand and an operator: the second operand comes next. -/
  | secondOperand (head : Head) (left op : Token)
  /-- An expression of two operands: it is over. -/
  | closing (head : Head) (value : Expression)
  /-- The first arm of a conditional: the word before its second arm comes next. -/
  | elseWord (word : Token) (test : Expression) (opening : Token) (thenBody : List Statement)
      (closing : Token)
  /-- The word before the second arm of a conditional: the arm opens next. -/
  | elseOpening (word : Token) (test : Expression) (opening : Token) (thenBody : List Statement)
      (closing elseWord : Token)
deriving Repr, Inhabited

/-- What has been read so far. -/
structure ParseState where
  /-- The statements whose bodies are open, innermost first. -/
  frames : List Frame := []
  /-- The finished statements of the innermost sequence. -/
  done : List Statement := []
  /-- The statement that has been begun. -/
  phase : Phase := .statement
deriving Repr, Inhabited

/-- What one more token leads to. -/
inductive Move where
  /-- The token was read. -/
  | shift (next : ParseState)
  /-- The token is the end marker and the program is complete. -/
  | accept (program : List Statement)
  /-- No program continues with the token. -/
  | refuse (fault : SyntaxFault)
deriving Repr, Inhabited

/-! ### Reading on -/

namespace Frame

/-- Closes an open body, whose statements and closing brace are given. -/
def close (frame : Frame) (frames : List Frame) (body : List Statement) (brace : Token) :
    ParseState :=
  match frame with
  | .thenBody before word test opening =>
    ⟨frames, before, .elseWord word test opening body brace⟩
  | .elseBody before word test opening firstArm closing elseWord elseOpening =>
    ⟨frames, before ++ [.cond word test opening firstArm closing elseWord elseOpening body brace],
      .statement⟩
  | .loopBody before word test opening =>
    ⟨frames, before ++ [.loop word test opening body brace], .statement⟩

end Frame

namespace ParseState

/-- Reads the token behind a complete expression: a delimiter ends the statement, and a brace opens
its body. -/
def closeExpression (s : ParseState) (head : Head) (value : Expression) (t : Token) : Move :=
  match head with
  | .ret word =>
    if t.kind = .delimiter then .shift ⟨s.frames, s.done ++ [.ret word value t], .statement⟩
    else .refuse (.expected .delimiter)
  | .assign target sign =>
    if t.kind = .delimiter then
      .shift ⟨s.frames, s.done ++ [.assign target sign value t], .statement⟩
    else .refuse (.expected .delimiter)
  | .cond word =>
    if t.kind = .openBrace then .shift ⟨.thenBody s.done word value t :: s.frames, [], .statement⟩
    else .refuse (.expected .openBrace)
  | .loop word =>
    if t.kind = .openBrace then .shift ⟨.loopBody s.done word value t :: s.frames, [], .statement⟩
    else .refuse (.expected .openBrace)

/-- Reads the token behind the last statement of a sequence: a brace closes the innermost body, and
the end marker ends the program. -/
def closeSequence (s : ParseState) (t : Token) : Move :=
  match s.frames with
  | [] => if t.kind = .eof then .accept s.done else .refuse .leftover
  | frame :: frames =>
    if t.kind = .closeBrace then .shift (frame.close frames s.done t)
    else .refuse (.expected .closeBrace)

/-- Whether tokens of the kind are operands. -/
def isOperand : Kind → Bool
  | .ident | .number => true
  | _ => false

/-- Reads the first token of a statement, which says what statement it is. -/
def openStatement (s : ParseState) (t : Token) : Move :=
  match t.kind with
  | .returnWord => .shift ⟨s.frames, s.done, .operand (.ret t)⟩
  | .ident => .shift ⟨s.frames, s.done, .sign t⟩
  | .ifWord => .shift ⟨s.frames, s.done, .operand (.cond t)⟩
  | .whileWord => .shift ⟨s.frames, s.done, .operand (.loop t)⟩
  | _ => .refuse .unknownStatement

/-- Reads one more token. -/
def step (s : ParseState) (t : Token) : Move :=
  match s.phase with
  | .statement =>
    -- A sequence goes on as long as statements can begin, and ends without a fault of its own.
    if t.kind.startsStatement then s.openStatement t else s.closeSequence t
  | .sign target =>
    if t.kind = .assign then .shift ⟨s.frames, s.done, .operand (.assign target t)⟩
    else .refuse (.expected .assign)
  | .operand head =>
    if isOperand t.kind then .shift ⟨s.frames, s.done, .tail head t⟩
    else .refuse .unknownValue
  | .tail head left =>
    if t.kind = .op then .shift ⟨s.frames, s.done, .secondOperand head left t⟩
    else s.closeExpression head ⟨left, none⟩ t
  | .secondOperand head left op =>
    if isOperand t.kind then .shift ⟨s.frames, s.done, .closing head ⟨left, some (op, t)⟩⟩
    else .refuse .unknownValue
  | .closing head value => s.closeExpression head value t
  | .elseWord word test opening thenBody closing =>
    if t.kind = .elseWord then
      .shift ⟨s.frames, s.done, .elseOpening word test opening thenBody closing t⟩
    else .refuse (.expected .elseWord)
  | .elseOpening word test opening thenBody closing elseWord =>
    if t.kind = .openBrace then
      .shift ⟨.elseBody s.done word test opening thenBody closing elseWord t :: s.frames, [],
        .statement⟩
    else .refuse (.expected .openBrace)

/-- Reads on to the end of the program.  `index` counts the tokens read before and `last` is the
one just before. -/
def run (s : ParseState) (index : Nat) (last : Token) :
    List Token → Except SyntaxError (List Statement)
  | [] => .error ⟨.exhausted, last, index⟩
  | t :: rest =>
    match s.step t with
    | .shift next => next.run (index + 1) t rest
    | .accept program => .ok program
    | .refuse fault => .error ⟨fault, t, index⟩

end ParseState

/-- The program that a list of tokens spells, up to its first end marker; what stands behind the
marker is not looked at. -/
def parse (tokens : List Token) : Except SyntaxError (List Statement) :=
  ParseState.run {} 0 {} tokens

end BlockFlow
