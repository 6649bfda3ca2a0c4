import BlockFlow.Proofs.Tree.Grouping
import BlockFlow.Proofs.Tree.NormalForm
import BlockFlow.Tree.Shape

/-!
# Normalisation yields the tree of the statements

The normal tree of a program is the tree of its statements, grouped by the rules of
`Statement.Grouping`: it holds every statement in its place, nothing else, and of the tokens it
keeps the names, the numbers and the operators (`normalize_isSequenceTree`).  Such trees have the
normal shape (`Statement.sound_isSequenceTree`), so the check of the shape never refuses what
normalisation made.
-/

namespace BlockFlow

open Statement (tokensAll ProperAll sequenceOutline)

/-! ### The check of a tree -/

namespace Node

/-- Neither the node nor any node below it breaks the normal shape. -/
def Sound (parent : Option Node) (n : Node) : Prop :=
  ∀ place ∈ n.visits (fun _ => true) parent, place.1.shapeFault? place.2 = none

theorem mem_visitsAll {enters : Node → Bool} {parent : Node} {children : List Node}
    {place : Node × Option Node} (h : place ∈ visitsAll enters parent children) :
    ∃ child ∈ children, place ∈ child.visits enters (some parent) := by
  induction children with
  | nil => cases h
  | cons child rest ih =>
    rw [visitsAll, List.mem_append] at h
    rcases h with h | h
    · exact ⟨child, List.mem_cons_self, h⟩
    · obtain ⟨child', hmem, h⟩ := ih h
      exact ⟨child', List.mem_cons_of_mem _ hmem, h⟩

/-- A tree is sound if its root is and its children are. -/
theorem sound_mk {id : Nat} {rule : Rule} {token : Option Token} {children : List Node}
    {parent : Option Node} (hroot : shapeFault? parent ⟨id, rule, token, children⟩ = none)
    (hchildren : ∀ child ∈ children, child.Sound (some ⟨id, rule, token, children⟩)) :
    Sound parent ⟨id, rule, token, children⟩ := by
  intro place hplace
  rw [visits] at hplace
  rcases List.mem_cons.mp hplace with rfl | hplace
  · exact hroot
  · obtain ⟨child, hmem, hplace⟩ := mem_visitsAll hplace
    exact hchildren child hmem place hplace

/-- The leaf of a token that is more than noise is sound. -/
theorem sound_leaf (id : Nat) {t : Token} (h : t.kind.isNoise = false) (parent : Option Node) :
    Sound parent ⟨id, .term, some t, []⟩ := by
  refine sound_mk ?_ (by simp)
  simp [shapeFault?, isNoise, kind?, h]

theorem checkShape_eq_none {n : Node} (hrule : n.rule = .sequence) (h : n.Sound none) :
    n.checkShape = none := by
  rw [checkShape, if_pos hrule, List.findSome?_eq_none_iff]
  exact h

end Node

/-! ### Trees of statements are sound -/

theorem Expression.IsTree.sound {e : Expression} {n : Node} (h : e.IsTree n) (hproper : e.Proper)
    (parent : Option Node) : n.Sound parent := by
  have hleft := Node.isNoise_of_isOperand hproper.1
  cases h with
  | operand id left => exact Node.sound_leaf id hleft parent
  | binary id idLeft idTail idOperator idRight left operator right =>
    obtain ⟨hoperator, hright⟩ := hproper.2 operator right rfl
    have hoperator : operator.kind.isNoise = false := by
      rw [hoperator]
      rfl
    have hright := Node.isNoise_of_isOperand hright
    refine Node.sound_mk rfl fun child hchild => ?_
    rcases List.mem_pair.mp hchild with rfl | rfl
    · exact Node.sound_leaf idLeft hleft _
    · refine Node.sound_mk rfl fun child hchild => ?_
      rcases List.mem_pair.mp hchild with rfl | rfl
      · exact Node.sound_leaf idOperator hoperator _
      · exact Node.sound_leaf idRight hright _

namespace Statement

variable {Arranged : List Statement → List Group → Prop}

theorem IsTree.rule_eq {s : Statement} {n : Node} (h : IsTree Arranged s n) :
    n.rule = s.outline.rule := by
  cases h <;> rfl

theorem IsSequenceTree.rule_eq {program : List Statement} {n : Node}
    (h : IsSequenceTree Arranged program n) : n.rule = .sequence := by
  cases h
  rfl

/-- Every tree of the statements is the tree of one of them. -/
theorem AreTrees.exists_isTree {program : List Statement} {nodes : List Node}
    (h : AreTrees Arranged program nodes) {n : Node} (hn : n ∈ nodes) :
    ∃ s ∈ program, IsTree Arranged s n := by
  induction program generalizing nodes with
  | nil =>
    cases h
    cases hn
  | cons s rest ih =>
    cases h with
    | cons tree trees =>
      rcases List.mem_cons.mp hn with rfl | hn
      · exact ⟨s, List.mem_cons_self, tree⟩
      · obtain ⟨s', hs', tree'⟩ := ih trees hn
        exact ⟨s', List.mem_cons_of_mem _ hs', tree'⟩

/-- What stands below a sequence are statements. -/
theorem AreGroupTrees.isStatement {groups : List Group} {nodes : List Node}
    (h : AreGroupTrees Arranged groups nodes) : ∀ n ∈ nodes, n.rule.isStatement = true := by
  induction groups generalizing nodes with
  | nil =>
    cases h
    simp
  | cons group rest ih =>
    cases h with
    | @alone s _ n _ tree trees =>
      refine List.forall_mem_cons.mpr ⟨?_, ih trees⟩
      rw [tree.rule_eq]
      cases s <;> rfl
    | block id inside trees => exact List.forall_mem_cons.mpr ⟨rfl, ih trees⟩

/-- A block of a run is sound at its root. -/
theorem shapeFault?_block {run : List Statement} {nodes : List Node} (id : Nat)
    (hrun : IsRun run) (h : AreTrees Arranged run nodes) {parent : Node}
    (hparent : parent.rule = .sequence) :
    Node.shapeFault? (some parent) ⟨id, .basicBlock, none, nodes⟩ = none := by
  have hne : nodes.isEmpty = false := by
    rw [List.isEmpty_eq_false_iff]
    rintro rfl
    exact hrun.ne_nil (List.eq_nil_of_length_eq_zero h.length_eq.symm)
  have hrules : ∀ n ∈ nodes, n.rule = .assign ∨ n.rule = .ret := by
    intro n hn
    obtain ⟨s, hs, tree⟩ := h.exists_isTree hn
    have hbranch := hrun.not_isBranch s hs
    rw [tree.rule_eq]
    cases s with
    | ret => exact .inr rfl
    | assign => exact .inl rfl
    | cond => exact absurd rfl hbranch
    | loop => exact absurd rfl hbranch
  simpa [Node.shapeFault?, hparent, hne] using fun n hn => (hrules n hn).resolve_left

mutual

/-- The tree of a statement is sound. -/
theorem sound_isTree : ∀ {s : Statement} {n : Node}, IsTree Grouping s n → s.Proper →
    ∀ parent, n.Sound parent
  | _, _, .ret _ _ _ tree, ⟨_, hvalue, _⟩, parent => by
    have hvalue := tree.sound hvalue
    exact Node.sound_mk rfl (by simp [hvalue])
  | _, _, .assign _ idTarget target _ _ tree, ⟨htarget, _, hvalue, _⟩, parent => by
    have hvalue := tree.sound hvalue
    have hleaf := Node.sound_leaf idTarget (t := target) (by rw [htarget]; rfl)
    refine Node.sound_mk ?_ (by simp [hleaf, hvalue])
    simp [Node.shapeFault?, Node.isTerm, Node.kind?, htarget]
  | _, _, .cond _ _ _ _ _ _ _ tree thenTree elseTree, ⟨_, htest, _, hthen, _, _, _, helse, _⟩,
      parent => by
    have htest := tree.sound htest
    have hthen := sound_isSequenceTree thenTree hthen
    have helse := sound_isSequenceTree elseTree helse
    refine Node.sound_mk ?_ (by simp [htest, hthen, helse])
    simp [Node.shapeFault?, thenTree.rule_eq, elseTree.rule_eq]
  | _, _, .loop _ _ _ _ tree bodyTree, ⟨_, htest, _, hbody, _⟩, parent => by
    have htest := tree.sound htest
    have hbody := sound_isSequenceTree bodyTree hbody
    refine Node.sound_mk ?_ (by simp [htest, hbody])
    simp [Node.shapeFault?, bodyTree.rule_eq]

theorem sound_areTrees : ∀ {program : List Statement} {nodes : List Node},
    AreTrees Grouping program nodes → ProperAll program → ∀ parent, ∀ n ∈ nodes, n.Sound parent
  | _, _, .nil, _, _ => nofun
  | _, _, .cons tree trees, ⟨hs, hrest⟩, parent =>
    List.forall_mem_cons.mpr ⟨sound_isTree tree hs parent, sound_areTrees trees hrest parent⟩

theorem sound_areGroupTrees : ∀ {groups : List Group} {nodes : List Node},
    AreGroupTrees Grouping groups nodes → (∀ group ∈ groups, group.Fits) →
    ProperAll (groups.flatMap Group.statements) → ∀ parent, parent.rule = .sequence →
      ∀ n ∈ nodes, n.Sound (some parent)
  | _, _, .nil, _, _, _, _ => nofun
  | _, _, .alone tree trees, hfits, hproper, parent, hparent => by
    have hothers := sound_areGroupTrees trees (List.forall_mem_cons.mp hfits).2 hproper.2 parent
      hparent
    exact List.forall_mem_cons.mpr ⟨sound_isTree tree hproper.1 _, hothers⟩
  | _, _, .block id inside trees, hfits, hproper, parent, hparent => by
    obtain ⟨hrun, hfits⟩ := List.forall_mem_cons.mp hfits
    rw [List.flatMap_cons, Group.statements, properAll_append] at hproper
    have hothers := sound_areGroupTrees trees hfits hproper.2 parent hparent
    refine List.forall_mem_cons.mpr ⟨Node.sound_mk ?_ ?_, hothers⟩
    · exact shapeFault?_block id hrun inside hparent
    · exact sound_areTrees inside hproper.1 _

/-- **Normal trees of statements have the normal shape.** -/
theorem sound_isSequenceTree : ∀ {program : List Statement} {n : Node},
    IsSequenceTree Grouping program n → ProperAll program → ∀ parent, n.Sound parent
  | _, _, .mk id arranged trees, hproper, parent => by
    refine Node.sound_mk ?_ ?_
    · simpa [Node.shapeFault?] using trees.isStatement
    · rw [← arranged.statements_eq] at hproper
      exact sound_areGroupTrees trees arranged.fits hproper _ rfl

end

end Statement

/-! ### The normal tree -/

/-- The normal tree of a program is the tree of its statements, grouped by the rules. -/
theorem isSequenceTree_normalize {program : List Statement} (h : ProperAll program) (last : Nat) :
    Statement.IsSequenceTree Statement.Grouping program
      (normalize ((sequenceOutline program).number last)).1 := by
  rw [normalize_eq]
  exact (Node.isSequenceTree_cleaned program h last).segmentBlocks
    (fun trees => Statement.areTrees_segmentBlocksAll trees) _

/-- The check of the shape never refuses the normal tree of a program. -/
theorem checkShape_normalize {program : List Statement} (h : ProperAll program) (last : Nat) :
    (normalize ((sequenceOutline program).number last)).1.checkShape = none := by
  have htree := isSequenceTree_normalize h last
  exact Node.checkShape_eq_none htree.rule_eq (Statement.sound_isSequenceTree htree h none)

/-- **Normalisation yields the tree of the program and loses nothing.**  The derivation of tokens
that are accepted is the derivation of a list of statements.  The normal tree of the derivation is
the tree of these statements, grouped into basic blocks by the rules of grouping, and the only one
but for the numbers of its nodes.  Its leaves are the names, numbers and operators before the first
end marker, each once and in order, and it passes the check of the shape. -/
theorem exists_normalize_isSequenceTree {last : Nat} {tokens : List Token} {tree : Node × Nat}
    (h : parseTree last tokens = .ok tree) :
    ∃ program, Grammar.IsDerivation (sequenceOutline program) (beforeMark tokens) ∧
      tree = (sequenceOutline program).number last ∧
      Statement.IsSequenceTree Statement.Grouping program (normalize tree).1 ∧
      (∀ n, Statement.IsSequenceTree Statement.Grouping program n →
        n.outline = (normalize tree).1.outline) ∧
      (normalize tree).1.leaves = content (beforeMark tokens) ∧
      (normalize tree).1.checkShape = none := by
  obtain ⟨program, hparse, rfl⟩ := Grammar.parseTree_eq_ok_iff.mp h
  obtain ⟨-, hproper, htokens⟩ := parse_eq_ok_iff_beforeMark.mp hparse
  have htree := isSequenceTree_normalize hproper last
  refine ⟨program, ?_, rfl, htree, fun n hn => ?_, ?_, checkShape_normalize hproper last⟩
  · exact Grammar.isDerivation_iff.mpr ⟨program, hproper, htokens, rfl⟩
  · exact Statement.outline_eq_of_isSequenceTree hn htree
  · rw [leaves_normalize hproper, htokens]

/-- The tokens of `if x < 0 { y = 0 - x; return y; z = 1; } else { } return x;`. -/
def absoluteTokens : List Token :=
  [.ifWord, .ident "x", .op '<', .number 0, .openBrace, .ident "y", .assign, .number 0, .op '-',
    .ident "x", .delimiter, .returnWord, .ident "y", .delimiter, .ident "z", .assign, .number 1,
    .delimiter, .closeBrace, .elseWord, .openBrace, .closeBrace, .returnWord, .ident "x",
    .delimiter, .eof].map fun lexeme => ⟨lexeme, {}⟩

/-- The statement behind the return is kept as well. -/
theorem normalize_absoluteTokens : ∃ tree program, parseTree 0 absoluteTokens = .ok tree ∧
    Statement.IsSequenceTree Statement.Grouping program (normalize tree).1 ∧
    (normalize tree).1.leaves.map Token.lexeme = [.ident "x", .op '<', .number 0, .ident "y",
      .number 0, .op '-', .ident "x", .ident "y", .ident "z", .number 1, .ident "x"] ∧
    (normalize tree).1.checkShape = none := by
  have hparse : ∃ tree, parseTree 0 absoluteTokens = .ok tree := ⟨_, rfl⟩
  obtain ⟨tree, hparse⟩ := hparse
  obtain ⟨program, -, -, htree, -, hleaves, hshape⟩ := exists_normalize_isSequenceTree hparse
  refine ⟨tree, program, hparse, htree, ?_, hshape⟩
  rw [hleaves]
  rfl

end BlockFlow
