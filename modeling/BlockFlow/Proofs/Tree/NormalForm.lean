import BlockFlow.Proofs.Lowering.Statements
import BlockFlow.Proofs.Tree.Cleaning
import BlockFlow.Proofs.Tree.Segments

/-!
# The normal tree of a program

Normalisation brings the tree of a program into a form that reads as the code of its statements
(`reads_normalize`), and it keeps all names, numbers and operators, so that every name of the
program is a name of the normal tree.
-/

namespace BlockFlow

open Statement (tokensAll ProperAll sequenceOutline codeAll)

variable {vars : List String}

/-! ### Expressions -/

/-- If the token is a name, it is one of the given ones. -/
def Token.NameIn (vars : List String) (t : Token) : Prop :=
  ∀ name, t.lexeme = .ident name → name ∈ vars

namespace Node

/-- The leaf of an operand reads as the operand. -/
theorem toExpr_leaf (id : Nat) {t : Token} (h : ParseState.isOperand t.kind)
    (hname : t.NameIn vars) : toExpr vars ⟨id, .term, some t, []⟩ = .ok t.operand := by
  obtain ⟨lexeme, span⟩ := t
  rcases Grammar.isOperand_iff.mp h with hkind | hkind
  all_goals
    cases lexeme <;> cases hkind
  · rename_i name
    rw [toExpr, toVariable]
    simp only [hname name rfl, ↓reduceIte]
    rfl
  · rfl

/-- The leaf of a name reads as the variable. -/
theorem toVariable_leaf (id : Nat) {t : Token} (h : t.kind = .ident) (hname : t.NameIn vars) :
    isTerm ⟨id, .term, some t, []⟩ .ident ∧
      toVariable vars ⟨id, .term, some t, []⟩ = .ok t.variableName := by
  obtain ⟨lexeme, span⟩ := t
  cases lexeme <;> cases h
  rename_i name
  refine ⟨rfl, ?_⟩
  simp only [toVariable, hname name rfl, ↓reduceIte]
  rfl

/-- The leaf of an operator reads as the operator. -/
theorem toOp_leaf (id : Nat) {t : Token} (h : t.kind = .op) (hknown : t.OperatorKnown) :
    toOp ⟨id, .term, some t, []⟩ = .ok t.operator := by
  obtain ⟨lexeme, span⟩ := t
  cases lexeme <;> cases h
  rename_i symbol
  obtain ⟨op, hop⟩ := Op.isSome_ofSymbol? (hknown symbol rfl)
  simp only [toOp, hop, Token.operator, Option.getD_some]

end Node

/-- **The tree of an expression reads as it.** -/
theorem Expression.IsTree.toExpr_eq {e : Expression} {n : Node} (h : e.IsTree n)
    (hproper : e.Proper) (htokens : ∀ t ∈ e.tokens, t.OperatorKnown ∧ t.NameIn vars) :
    n.toExpr vars = .ok e.expr := by
  cases h with
  | operand id left => exact Node.toExpr_leaf _ hproper.1 (htokens left (by simp [tokens])).2
  | binary id idLeft idTail idOperator idRight left operator right =>
    obtain ⟨hoperator, hright⟩ := hproper.2 operator right rfl
    refine Node.toExpr_binary rfl rfl rfl ?_ ?_ ?_
    · exact Node.toExpr_leaf _ hproper.1 (htokens left (by simp [tokens])).2
    · exact Node.toOp_leaf _ hoperator (htokens operator (by simp [tokens])).1
    · exact Node.toExpr_leaf _ hright (htokens right (by simp [tokens])).2

/-! ### Statements -/

namespace Statement

/-- If the statements of a sequence can be read one after the other, the sequence can. -/
theorem IsSequenceTree.reads {program : List Statement} {n : Node} {code : List Code}
    (h : IsSequenceTree Ungrouped program n)
    (hreads : ∀ {nodes}, AreTrees Ungrouped program nodes → Reads vars nodes code) :
    n.rule = .sequence ∧ Reads vars n.children code := by
  obtain ⟨id, rfl, trees⟩ := h
  exact ⟨rfl, hreads (areTrees_of_alone trees)⟩

mutual

/-- The tree of a statement reads as its code, in front of whatever follows it. -/
theorem reads_isTree : ∀ {s : Statement} {n : Node}, IsTree Ungrouped s n → s.Proper →
    (∀ t ∈ s.tokens, t.OperatorKnown ∧ t.NameIn vars) → ∀ rest after, Reads vars rest after →
      Reads vars (n :: rest) (s.code :: after)
  | .ret word value delimiter, _, .ret id _ _ tree, ⟨_, hvalue, _⟩, htokens, rest, after, hrest =>
    .ret rfl rfl (tree.toExpr_eq hvalue fun t ht => htokens t (by simp [tokens, ht]))
  | .assign target sign value delimiter, _, .assign id idTarget _ _ _ tree, ⟨htarget, _, hvalue, _⟩,
      htokens, rest, after, hrest => by
    obtain ⟨hisTerm, hvariable⟩ := Node.toVariable_leaf idTarget htarget
      (htokens target (by simp [tokens])).2
    have hexpr := tree.toExpr_eq hvalue fun t ht => htokens t (by simp [tokens, ht])
    exact .assign rfl rfl hisTerm hexpr hvariable hrest
  | .cond word test opening thenBody closing elseWord elseOpening elseBody elseClosing, _,
      .cond id _ _ _ _ _ _ tree thenTree elseTree, ⟨_, htest, _, hthen, _, _, _, helse, _⟩,
      htokens, rest, after, hrest => by
    have hexpr := tree.toExpr_eq htest fun t ht => htokens t (by simp [tokens, ht])
    obtain ⟨hthenRule, hthenReads⟩ := thenTree.reads fun trees =>
      reads_areTrees trees hthen fun t ht => htokens t (by simp [tokens, ht])
    obtain ⟨helseRule, helseReads⟩ := elseTree.reads fun trees =>
      reads_areTrees trees helse fun t ht => htokens t (by simp [tokens, ht])
    exact .cond rfl rfl hexpr hthenRule hthenReads helseRule helseReads hrest
  | .loop word test opening body closing, _, .loop id _ _ _ tree bodyTree, ⟨_, htest, _, hbody, _⟩,
      htokens, rest, after, hrest => by
    have hexpr := tree.toExpr_eq htest fun t ht => htokens t (by simp [tokens, ht])
    obtain ⟨hbodyRule, hbodyReads⟩ := bodyTree.reads fun trees =>
      reads_areTrees trees hbody fun t ht => htokens t (by simp [tokens, ht])
    exact .loop rfl rfl hexpr hbodyRule hbodyReads hrest

/-- The trees of statements read as their code. -/
theorem reads_areTrees : ∀ {program : List Statement} {nodes : List Node},
    AreTrees Ungrouped program nodes → ProperAll program →
    (∀ t ∈ tokensAll program, t.OperatorKnown ∧ t.NameIn vars) → Reads vars nodes (codeAll program)
  | [], _, .nil, _, _ => .nil
  | s :: rest, _, .cons tree trees, ⟨hs, hrest⟩, htokens => by
    have hreads := reads_areTrees trees hrest fun t ht => htokens t (by simp [tokensAll, ht])
    exact reads_isTree tree hs (fun t ht => htokens t (by simp [tokensAll, ht])) _ _ hreads

end

end Statement

/-! ### The whole of normalisation -/

theorem normalize_eq (tree : Node × Nat) : normalize tree = tree.1.cleaned.segmentBlocks tree.2 :=
  rfl

/-- **The leaves of a normal tree are the names, numbers and operators of the program.** -/
theorem leaves_normalize {program : List Statement} (h : ProperAll program) (last : Nat) :
    (normalize ((sequenceOutline program).number last)).1.leaves = content (tokensAll program) := by
  have htree := Node.isSequenceTree_cleaned program h last
  rw [normalize_eq, Node.leaves_segmentBlocks]
  refine Statement.leaves_isSequenceTree (fun program groups hgroups => ?_) htree h
  rw [hgroups, List.flatMap_map]
  exact List.flatMap_singleton' program

/-- Every name of a program is a name of its normal tree. -/
theorem nameIn_normalize {program : List Statement} (h : ProperAll program) (last : Nat) :
    ∀ t ∈ tokensAll program,
      t.NameIn (normalize ((sequenceOutline program).number last)).1.names := by
  intro t ht name hname
  rw [Node.mem_names_iff, leaves_normalize h]
  have hkind : t.kind = .ident := by
    rw [Token.kind, hname]
    rfl
  exact ⟨t, List.mem_filter.mpr ⟨ht, decide_eq_true (.inl hkind)⟩, hname⟩

/-- **The normal tree of a program reads as its code,** with its own names as variables. -/
theorem reads_normalize {program : List Statement} (h : Statement.Executable program)
    (last : Nat) :
    (normalize ((sequenceOutline program).number last)).1.rule = .sequence ∧
      Reads (normalize ((sequenceOutline program).number last)).1.names
        (normalize ((sequenceOutline program).number last)).1.children (codeAll program) := by
  obtain ⟨hrule, hreads⟩ := (Node.isSequenceTree_cleaned program h.proper last).reads fun trees =>
    Statement.reads_areTrees trees h.proper
      fun t ht => ⟨h.known t ht, nameIn_normalize h.proper last t ht⟩
  rw [normalize_eq] at *
  exact ⟨(Node.rule_segmentBlocks _ _).trans hrule, Node.reads_segmentBlocks hrule hreads _⟩

end BlockFlow
