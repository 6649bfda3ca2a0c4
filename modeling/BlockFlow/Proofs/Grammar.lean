import BlockFlow.Tree.Derivation
import Mathlib.Data.List.Forall2

/-!
# The grammar

`productions` is the grammar as a table: each rule with the rows of symbols that it may stand for.
A derivation is a tree in which every inner node is licensed by a production and every leaf is a
token of the kind that its place asks for (`Derives`); what it derives are its leaves from left to
right.

Statements are such derivations in another form.  `Statement.Proper` says that a statement has the
right kind of token in each place, and a tree derives from the sequence exactly if it is the tree of
a sequence of proper statements (`derives_sequence_iff`), whose tokens are its leaves
(`leaves_sequenceOutline`).
-/

namespace BlockFlow

namespace Grammar

/-! ### Productions -/

/-- What a place in a production asks for: a token of a kind, or a part of the program. -/
inductive Symbol where
  | token (kind : Kind)
  | rule (rule : Rule)
deriving DecidableEq, Repr

/-- The rows of symbols that a rule may stand for. -/
def productions : Rule → List (List Symbol)
  | .sequence => [[], [.rule .wrapper, .rule .sequence]]
  | .wrapper => [[.rule .ret], [.rule .assign], [.rule .cond], [.rule .loop]]
  | .ret => [[.token .returnWord, .rule .value, .token .delimiter]]
  | .assign => [[.token .ident, .token .assign, .rule .value, .token .delimiter]]
  | .cond =>
    [[.token .ifWord, .rule .value, .token .openBrace, .rule .sequence, .token .closeBrace,
      .token .elseWord, .token .openBrace, .rule .sequence, .token .closeBrace]]
  | .loop =>
    [[.token .whileWord, .rule .value, .token .openBrace, .rule .sequence, .token .closeBrace]]
  | .value => [[.token .ident, .rule .tail], [.token .number, .rule .tail]]
  | .tail => [[], [.token .op, .token .ident], [.token .op, .token .number]]
  | .term | .basicBlock | .other _ => []

mutual

/-- The tree is a derivation from the symbol: a leaf whose token has the kind asked for, or a node
whose children derive from the symbols of a production of its rule. -/
inductive Derives : Symbol → Outline → Prop where
  | token {kind : Kind} (t : Token) (kind_eq : t.kind = kind) : Derives (.token kind) (.leaf t)
  | rule {rule : Rule} (symbols : List Symbol) {children : List Outline}
      (production : symbols ∈ productions rule) (parts : DerivesAll symbols children) :
      Derives (.rule rule) ⟨rule, none, children⟩

/-- The trees are derivations from the symbols, one from each. -/
inductive DerivesAll : List Symbol → List Outline → Prop where
  | nil : DerivesAll [] []
  | cons {symbol : Symbol} {symbols : List Symbol} {tree : Outline} {trees : List Outline}
      (first : Derives symbol tree) (others : DerivesAll symbols trees) :
      DerivesAll (symbol :: symbols) (tree :: trees)

end

end Grammar

/-! ### Leaves -/

mutual

/-- The tokens of the leaves of a tree, from left to right. -/
def Outline.leaves : Outline → List Token
  | ⟨rule, token, children⟩ =>
    (if rule = .term then token.toList else []) ++ Outline.leavesAll children

/-- The tokens of the leaves of trees, from left to right. -/
def Outline.leavesAll : List Outline → List Token
  | [] => []
  | child :: rest => child.leaves ++ Outline.leavesAll rest

end

@[simp] theorem Outline.leaves_leaf (t : Token) : (Outline.leaf t).leaves = [t] := by
  simp [Outline.leaf, Outline.leaves, Outline.leavesAll]

/-! ### Proper statements -/

namespace Expression

/-- The tokens of an expression. -/
def tokens (e : Expression) : List Token :=
  match e.tail with
  | none => [e.left]
  | some (op, right) => [e.left, op, right]

/-- The operands are names or numbers, and what stands between them is an operator. -/
def Proper (e : Expression) : Prop :=
  ParseState.isOperand e.left.kind ∧
  ∀ op right, e.tail = some (op, right) → op.kind = .op ∧ ParseState.isOperand right.kind

end Expression

namespace Statement

mutual

/-- The tokens of a statement. -/
def tokens : Statement → List Token
  | ret word value delimiter => word :: (value.tokens ++ [delimiter])
  | assign target sign value delimiter => target :: sign :: (value.tokens ++ [delimiter])
  | cond word test opening thenBody closing elseWord elseOpening elseBody elseClosing =>
    word :: (test.tokens ++ opening :: (tokensAll thenBody ++
      closing :: elseWord :: elseOpening :: (tokensAll elseBody ++ [elseClosing])))
  | loop word test opening body closing =>
    word :: (test.tokens ++ opening :: (tokensAll body ++ [closing]))

/-- The tokens of statements. -/
def tokensAll : List Statement → List Token
  | [] => []
  | s :: rest => tokens s ++ tokensAll rest

end

mutual

/-- Every token of a statement has the kind that its place asks for. -/
def Proper : Statement → Prop
  | ret word value delimiter =>
    word.kind = .returnWord ∧ value.Proper ∧ delimiter.kind = .delimiter
  | assign target sign value delimiter =>
    target.kind = .ident ∧ sign.kind = .assign ∧ value.Proper ∧ delimiter.kind = .delimiter
  | cond word test opening thenBody closing elseWord elseOpening elseBody elseClosing =>
    word.kind = .ifWord ∧ test.Proper ∧ opening.kind = .openBrace ∧ ProperAll thenBody ∧
    closing.kind = .closeBrace ∧ elseWord.kind = .elseWord ∧ elseOpening.kind = .openBrace ∧
    ProperAll elseBody ∧ elseClosing.kind = .closeBrace
  | loop word test opening body closing =>
    word.kind = .whileWord ∧ test.Proper ∧ opening.kind = .openBrace ∧ ProperAll body ∧
    closing.kind = .closeBrace

/-- Every token of statements has the kind that its place asks for. -/
def ProperAll : List Statement → Prop
  | [] => True
  | s :: rest => Proper s ∧ ProperAll rest

end

end Statement

/-! ### Proper statements are derivations -/

namespace Grammar

theorem derives_of_kind {t : Token} {kind : Kind} (h : t.kind = kind) :
    Derives (.token kind) (.leaf t) :=
  .token t h

/-- An operand is a name or a number. -/
theorem isOperand_iff {kind : Kind} :
    ParseState.isOperand kind ↔ kind = .ident ∨ kind = .number := by
  cases kind <;> simp [ParseState.isOperand]

theorem derives_tail {op right : Token} (hop : op.kind = .op)
    (hright : ParseState.isOperand right.kind) :
    Derives (.rule .tail) ⟨.tail, none, [.leaf op, .leaf right]⟩ := by
  rcases isOperand_iff.mp hright with h | h
  · exact .rule [.token .op, .token .ident] (by simp [productions])
      (.cons (derives_of_kind hop) (.cons (derives_of_kind h) .nil))
  · exact .rule [.token .op, .token .number] (by simp [productions])
      (.cons (derives_of_kind hop) (.cons (derives_of_kind h) .nil))

/-- An operand and a tail make an expression. -/
theorem derives_value {left : Token} {tail : Outline} (hleft : ParseState.isOperand left.kind)
    (htail : Derives (.rule .tail) tail) :
    Derives (.rule .value) ⟨.value, none, [.leaf left, tail]⟩ := by
  rcases isOperand_iff.mp hleft with h | h
  · exact .rule [.token .ident, .rule .tail] (by simp [productions])
      (.cons (derives_of_kind h) (.cons htail .nil))
  · exact .rule [.token .number, .rule .tail] (by simp [productions])
      (.cons (derives_of_kind h) (.cons htail .nil))

theorem derives_expression {e : Expression} (h : e.Proper) :
    Derives (.rule .value) e.outline := by
  obtain ⟨left, tail⟩ := e
  obtain ⟨hleft, htail⟩ := h
  cases tail with
  | none => exact derives_value hleft (.rule [] (by simp [productions]) .nil)
  | some tail =>
    obtain ⟨op, right⟩ := tail
    obtain ⟨hop, hright⟩ := htail op right rfl
    exact derives_value hleft (derives_tail hop hright)

mutual

/-- The tree of a proper statement, in its wrapper, is a derivation. -/
theorem derives_wrapper : ∀ (s : Statement), s.Proper →
    Derives (.rule .wrapper) ⟨.wrapper, none, [s.outline]⟩
  | .ret word value delimiter, ⟨hword, hvalue, hdelimiter⟩ => by
    have hs : Derives (.rule .ret) (Statement.ret word value delimiter).outline :=
      .rule _ (List.mem_singleton.mpr rfl) (.cons (derives_of_kind hword)
        (.cons (derives_expression hvalue) (.cons (derives_of_kind hdelimiter) .nil)))
    exact .rule [.rule .ret] (by simp [productions]) (.cons hs .nil)
  | .assign target sign value delimiter, ⟨htarget, hsign, hvalue, hdelimiter⟩ => by
    have hs : Derives (.rule .assign) (Statement.assign target sign value delimiter).outline :=
      .rule _ (List.mem_singleton.mpr rfl) (.cons (derives_of_kind htarget)
        (.cons (derives_of_kind hsign) (.cons (derives_expression hvalue)
          (.cons (derives_of_kind hdelimiter) .nil))))
    exact .rule [.rule .assign] (by simp [productions]) (.cons hs .nil)
  | .cond word test opening thenBody closing elseWord elseOpening elseBody elseClosing,
      ⟨hword, htest, hopening, hthen, hclosing, helseWord, helseOpening, helse, helseClosing⟩ => by
    have hs : Derives (.rule .cond) (Statement.cond word test opening thenBody closing elseWord
        elseOpening elseBody elseClosing).outline :=
      .rule _ (List.mem_singleton.mpr rfl) (.cons (derives_of_kind hword)
        (.cons (derives_expression htest) (.cons (derives_of_kind hopening)
          (.cons (derives_sequence thenBody hthen) (.cons (derives_of_kind hclosing)
            (.cons (derives_of_kind helseWord) (.cons (derives_of_kind helseOpening)
              (.cons (derives_sequence elseBody helse)
                (.cons (derives_of_kind helseClosing) .nil)))))))))
    exact .rule [.rule .cond] (by simp [productions]) (.cons hs .nil)
  | .loop word test opening body closing, ⟨hword, htest, hopening, hbody, hclosing⟩ => by
    have hs : Derives (.rule .loop) (Statement.loop word test opening body closing).outline :=
      .rule _ (List.mem_singleton.mpr rfl) (.cons (derives_of_kind hword)
        (.cons (derives_expression htest) (.cons (derives_of_kind hopening)
          (.cons (derives_sequence body hbody) (.cons (derives_of_kind hclosing) .nil)))))
    exact .rule [.rule .loop] (by simp [productions]) (.cons hs .nil)

/-- The tree of proper statements is a derivation. -/
theorem derives_sequence : ∀ (program : List Statement), Statement.ProperAll program →
    Derives (.rule .sequence) (Statement.sequenceOutline program)
  | [], _ => .rule [] (by simp [productions]) .nil
  | s :: rest, ⟨hs, hrest⟩ =>
    .rule [.rule .wrapper, .rule .sequence] (by simp [productions])
      (.cons (derives_wrapper s hs) (.cons (derives_sequence rest hrest) .nil))

end

/-! ### Derivations are proper statements -/

/-- What a derivation from a symbol is the tree of.  A tail makes an expression of every operand. -/
def Reads : Symbol → Outline → Prop
  | .token kind, d => ∃ t : Token, t.kind = kind ∧ d = .leaf t
  | .rule .sequence, d =>
    ∃ program, Statement.ProperAll program ∧ d = Statement.sequenceOutline program
  | .rule .wrapper, d => ∃ s : Statement, s.Proper ∧ d = ⟨.wrapper, none, [s.outline]⟩
  | .rule .ret, d | .rule .assign, d | .rule .cond, d | .rule .loop, d =>
    ∃ s : Statement, s.Proper ∧ d = s.outline
  | .rule .value, d => ∃ e : Expression, e.Proper ∧ d = e.outline
  | .rule .tail, d => ∀ left : Token, ParseState.isOperand left.kind →
    ∃ e : Expression, e.Proper ∧ (⟨.value, none, [.leaf left, d]⟩ : Outline) = e.outline
  | .rule _, _ => False

/-- A production whose parts are trees of what they should be gives such a tree. -/
theorem reads_of_production {rule : Rule} {symbols : List Symbol} {children : List Outline}
    (production : symbols ∈ productions rule) (parts : List.Forall₂ Reads symbols children) :
    Reads (.rule rule) ⟨rule, none, children⟩ := by
  cases rule with
  | sequence =>
    rcases List.mem_pair.mp production with rfl | rfl
    · cases parts
      exact ⟨[], trivial, rfl⟩
    · obtain _ | ⟨⟨s, hs, rfl⟩, _ | ⟨⟨rest, hrest, rfl⟩, _ | _⟩⟩ := parts
      exact ⟨s :: rest, ⟨hs, hrest⟩, rfl⟩
  | wrapper =>
    have hparts : ∃ s : Statement, s.Proper ∧ children = [s.outline] := by
      simp only [productions, List.mem_cons, List.not_mem_nil, or_false] at production
      rcases production with rfl | rfl | rfl | rfl <;>
        · obtain _ | ⟨⟨s, hs, rfl⟩, _ | _⟩ := parts
          exact ⟨s, hs, rfl⟩
    obtain ⟨s, hs, rfl⟩ := hparts
    exact ⟨s, hs, rfl⟩
  | ret =>
    rw [List.mem_singleton.mp production] at parts
    obtain _ | ⟨⟨word, hword, rfl⟩, _ | ⟨⟨value, hvalue, rfl⟩,
        _ | ⟨⟨delimiter, hd, rfl⟩, _ | _⟩⟩⟩ :=
      parts
    exact ⟨.ret word value delimiter, ⟨hword, hvalue, hd⟩, rfl⟩
  | assign =>
    rw [List.mem_singleton.mp production] at parts
    obtain _ | ⟨⟨target, htarget, rfl⟩, parts⟩ := parts
    obtain _ | ⟨⟨sign, hsign, rfl⟩, _ | ⟨⟨value, hvalue, rfl⟩,
        _ | ⟨⟨delimiter, hd, rfl⟩, _ | _⟩⟩⟩ :=
      parts
    exact ⟨.assign target sign value delimiter, ⟨htarget, hsign, hvalue, hd⟩, rfl⟩
  | cond =>
    rw [List.mem_singleton.mp production] at parts
    obtain _ | ⟨⟨word, hword, rfl⟩, _ | ⟨⟨test, htest, rfl⟩, parts⟩⟩ := parts
    obtain _ | ⟨⟨opening, hopening, rfl⟩, _ | ⟨⟨thenBody, hthen, rfl⟩, parts⟩⟩ := parts
    obtain _ | ⟨⟨closing, hclosing, rfl⟩, _ | ⟨⟨elseWord, helseWord, rfl⟩, parts⟩⟩ := parts
    obtain _ | ⟨⟨elseOpening, helseOpening, rfl⟩, _ | ⟨⟨elseBody, helse, rfl⟩, parts⟩⟩ := parts
    obtain _ | ⟨⟨elseClosing, helseClosing, rfl⟩, _ | _⟩ := parts
    exact ⟨.cond word test opening thenBody closing elseWord elseOpening elseBody elseClosing,
      ⟨hword, htest, hopening, hthen, hclosing, helseWord, helseOpening, helse, helseClosing⟩, rfl⟩
  | loop =>
    rw [List.mem_singleton.mp production] at parts
    obtain _ | ⟨⟨word, hword, rfl⟩, _ | ⟨⟨test, htest, rfl⟩, parts⟩⟩ := parts
    obtain _ | ⟨⟨opening, hopening, rfl⟩, _ | ⟨⟨body, hbody, rfl⟩, parts⟩⟩ := parts
    obtain _ | ⟨⟨closing, hclosing, rfl⟩, _ | _⟩ := parts
    exact ⟨.loop word test opening body closing, ⟨hword, htest, hopening, hbody, hclosing⟩, rfl⟩
  | value =>
    rcases List.mem_pair.mp production with rfl | rfl
    · obtain _ | ⟨⟨left, hleft, rfl⟩, _ | ⟨htail, _ | _⟩⟩ := parts
      exact htail left (isOperand_iff.mpr (.inl hleft))
    · obtain _ | ⟨⟨left, hleft, rfl⟩, _ | ⟨htail, _ | _⟩⟩ := parts
      exact htail left (isOperand_iff.mpr (.inr hleft))
  | tail =>
    -- The second and the third production differ in the kind of the operand only.
    intro left hleft
    simp only [productions, List.mem_cons, List.not_mem_nil, or_false] at production
    rcases production with rfl | rfl | rfl
    · cases parts
      exact ⟨⟨left, none⟩, ⟨hleft, fun _ _ h => by cases h⟩, rfl⟩
    · obtain _ | ⟨⟨op, hop, rfl⟩, _ | ⟨⟨right, hright, rfl⟩, _ | _⟩⟩ := parts
      refine ⟨⟨left, some (op, right)⟩, ⟨hleft, ?_⟩, rfl⟩
      rintro _ _ ⟨⟩
      exact ⟨hop, isOperand_iff.mpr (.inl hright)⟩
    · obtain _ | ⟨⟨op, hop, rfl⟩, _ | ⟨⟨right, hright, rfl⟩, _ | _⟩⟩ := parts
      refine ⟨⟨left, some (op, right)⟩, ⟨hleft, ?_⟩, rfl⟩
      rintro _ _ ⟨⟩
      exact ⟨hop, isOperand_iff.mpr (.inr hright)⟩
  | term => cases production
  | basicBlock => cases production
  | other code => cases production

mutual

/-- Every derivation is the tree of what its symbol stands for. -/
theorem Derives.reads {symbol : Symbol} {d : Outline} : Derives symbol d → Reads symbol d
  | .token t h => ⟨t, h, rfl⟩
  | .rule _ production parts => reads_of_production production parts.reads

theorem DerivesAll.reads {symbols : List Symbol} {ds : List Outline} :
    DerivesAll symbols ds → List.Forall₂ Reads symbols ds
  | .nil => .nil
  | .cons first others => .cons first.reads others.reads

end

/-- **Derivations from the sequence are the trees of proper statements.** -/
theorem derives_sequence_iff {d : Outline} : Derives (.rule .sequence) d ↔
    ∃ program, Statement.ProperAll program ∧ d = Statement.sequenceOutline program := by
  constructor
  · intro h
    exact h.reads
  · rintro ⟨program, hproper, rfl⟩
    exact derives_sequence program hproper

end Grammar

/-! ### The leaves of a derivation -/

@[simp] theorem Expression.leaves_outline (e : Expression) : e.outline.leaves = e.tokens := by
  obtain ⟨left, _ | ⟨op, right⟩⟩ := e <;>
    simp [outline, tokens, Outline.leaves, Outline.leavesAll]

namespace Statement

mutual

theorem leaves_outline : ∀ s : Statement, s.outline.leaves = s.tokens
  | ret word value delimiter => by simp [outline, tokens, Outline.leaves, Outline.leavesAll]
  | assign target sign value delimiter => by
    simp [outline, tokens, Outline.leaves, Outline.leavesAll]
  | cond word test opening thenBody closing elseWord elseOpening elseBody elseClosing => by
    simp [outline, tokens, Outline.leaves, Outline.leavesAll, leaves_sequenceOutline thenBody,
      leaves_sequenceOutline elseBody]
  | loop word test opening body closing => by
    simp [outline, tokens, Outline.leaves, Outline.leavesAll, leaves_sequenceOutline body]

/-- The leaves of the tree of a program are the tokens of the program. -/
theorem leaves_sequenceOutline : ∀ program : List Statement,
    (sequenceOutline program).leaves = tokensAll program
  | [] => by simp [sequenceOutline, tokensAll, Outline.leaves, Outline.leavesAll]
  | s :: rest => by
    simp [sequenceOutline, tokensAll, Outline.leaves, Outline.leavesAll, leaves_outline s,
      leaves_sequenceOutline rest]

end

end Statement

end BlockFlow
