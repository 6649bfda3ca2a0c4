import BlockFlow.Proofs.Tree.Leaves

/-!
# Trees of statements

The derivation of a program holds more than its statements.  The first three passes of normalisation
drop what only gave it its shape, and what they leave is a tree of the statements themselves
(`Node.isSequenceTree_cleaned`): `Statement.IsTree` says which trees stand for a statement, whatever
the numbers of their nodes are.  How the statements of a sequence are put into groups is left open;
before the last pass each stands alone.

The passes are taken together: `Node.cleaned` is what they make of a tree.  On lists of trees they
act from left to right, and what they do with a tree depends on its rule alone
(`Node.cleanedAll_cons` and the lemmas around it).
-/

namespace BlockFlow

open Statement (tokensAll ProperAll sequenceOutline)

/-! ### Trees that stand for statements -/

/-- The tree stands for the expression: it is the leaf of the operand, or, if there is an operator,
an operand beside a tail of the operator and the other operand. -/
inductive Expression.IsTree : Expression → Node → Prop where
  | operand (id : Nat) (left : Token) : IsTree ⟨left, none⟩ ⟨id, .term, some left, []⟩
  | binary (id idLeft idTail idOperator idRight : Nat) (left operator right : Token) :
      IsTree ⟨left, some (operator, right)⟩
        ⟨id, .value, none, [⟨idLeft, .term, some left, []⟩,
          ⟨idTail, .tail, none,
            [⟨idOperator, .term, some operator, []⟩, ⟨idRight, .term, some right, []⟩]⟩]⟩

namespace Statement

/-- A part of a sequence: a statement that stands alone, or the statements of a basic block. -/
inductive Group where
  | alone (s : Statement)
  | block (run : List Statement)

/-- The statements of a group. -/
def Group.statements : Group → List Statement
  | alone s => [s]
  | block run => run

-- `Arranged program groups` says into which groups the statements of a sequence may be put.
variable (Arranged : List Statement → List Group → Prop)

mutual

/-- The tree stands for the statement. -/
inductive IsTree : Statement → Node → Prop where
  | ret (id : Nat) (word delimiter : Token) {value : Expression} {n : Node}
      (tree : value.IsTree n) : IsTree (.ret word value delimiter) ⟨id, .ret, none, [n]⟩
  | assign (id idTarget : Nat) (target sign delimiter : Token) {value : Expression} {n : Node}
      (tree : value.IsTree n) :
      IsTree (.assign target sign value delimiter)
        ⟨id, .assign, none, [⟨idTarget, .term, some target, []⟩, n]⟩
  | cond (id : Nat) (word opening closing elseWord elseOpening elseClosing : Token)
      {test : Expression} {thenBody elseBody : List Statement} {n first second : Node}
      (tree : test.IsTree n) (thenTree : IsSequenceTree thenBody first)
      (elseTree : IsSequenceTree elseBody second) :
      IsTree
        (.cond word test opening thenBody closing elseWord elseOpening elseBody elseClosing)
        ⟨id, .cond, none, [n, first, second]⟩
  | loop (id : Nat) (word opening closing : Token) {test : Expression} {body : List Statement}
      {n inner : Node} (tree : test.IsTree n) (bodyTree : IsSequenceTree body inner) :
      IsTree (.loop word test opening body closing) ⟨id, .loop, none, [n, inner]⟩

/-- The trees stand for the statements, one for each. -/
inductive AreTrees : List Statement → List Node → Prop where
  | nil : AreTrees [] []
  | cons {s : Statement} {rest : List Statement} {n : Node} {others : List Node}
      (tree : IsTree s n) (trees : AreTrees rest others) : AreTrees (s :: rest) (n :: others)

/-- The trees stand for the groups, one for each; a block has a node of its own. -/
inductive AreGroupTrees : List Group → List Node → Prop where
  | nil : AreGroupTrees [] []
  | alone {s : Statement} {rest : List Group} {n : Node} {others : List Node}
      (tree : IsTree s n) (trees : AreGroupTrees rest others) :
      AreGroupTrees (.alone s :: rest) (n :: others)
  | block (id : Nat) {run : List Statement} {rest : List Group} {nodes others : List Node}
      (inside : AreTrees run nodes) (trees : AreGroupTrees rest others) :
      AreGroupTrees (.block run :: rest) (⟨id, .basicBlock, none, nodes⟩ :: others)

/-- The tree stands for the sequence of statements. -/
inductive IsSequenceTree : List Statement → Node → Prop where
  | mk (id : Nat) {program : List Statement} {groups : List Group} {children : List Node}
      (arranged : Arranged program groups) (trees : AreGroupTrees groups children) :
      IsSequenceTree program ⟨id, .sequence, none, children⟩

end

/-- Every statement stands alone. -/
def Ungrouped (program : List Statement) (groups : List Group) : Prop :=
  groups = program.map .alone

variable {Arranged}

theorem areTrees_of_alone {program : List Statement} {nodes : List Node}
    (h : AreGroupTrees Arranged (program.map .alone) nodes) : AreTrees Arranged program nodes := by
  induction program generalizing nodes with
  | nil =>
    cases h
    exact .nil
  | cons s rest ih =>
    cases h with
    | alone tree trees => exact .cons tree (ih trees)

/-- Below a sequence without groups stand the trees of its statements. -/
theorem IsSequenceTree.children_of_ungrouped {program : List Statement} {n : Node}
    (h : IsSequenceTree Ungrouped program n) :
    AreGroupTrees Ungrouped (program.map .alone) n.children := by
  obtain ⟨id, rfl, trees⟩ := h
  exact trees

end Statement

namespace Node

/-! ### The first three passes -/

/-- What the first three passes make of a tree. -/
def cleaned (n : Node) : Node :=
  n.flattenSequences.flattenValues.removeNoise

/-- What the first three passes make of the children of a node. -/
def cleanedAll (ns : List Node) : List Node :=
  removeNoiseAll (flattenValuesAll (flattenSequencesAll ns))

@[simp] theorem rule_flattenSequences (n : Node) : n.flattenSequences.rule = n.rule := by
  unfold flattenSequences
  split <;> rfl

theorem flattenSequences_of_ne {n : Node} (h : n.rule ≠ .sequence) :
    n.flattenSequences = ⟨n.id, n.rule, n.token, flattenSequencesAll n.children⟩ := by
  unfold flattenSequences
  split
  · exact absurd rfl h
  · exact absurd rfl h
  · rfl

theorem flattenValues_eq (n : Node) :
    n.flattenValues = ⟨n.id, n.rule, n.token, flattenValuesAll n.children⟩ := by
  obtain ⟨id, rule, token, children⟩ := n
  rw [flattenValues]

theorem removeNoise_eq (n : Node) :
    n.removeNoise = ⟨n.id, n.rule, n.token, removeNoiseAll n.children⟩ := by
  obtain ⟨id, rule, token, children⟩ := n
  rw [removeNoise]

theorem flattenValuesAll_cons {n : Node} (h : n.rule ≠ .value) (rest : List Node) :
    flattenValuesAll (n :: rest) = n.flattenValues :: flattenValuesAll rest := by
  rw [flattenValuesAll]
  rintro id token operand id' token' rfl
  exact h rfl

theorem removeNoiseAll_cons {n : Node} (h : n.rule ≠ .term) (rest : List Node) :
    removeNoiseAll (n :: rest) = n.removeNoise :: removeNoiseAll rest := by
  rw [removeNoiseAll, kind?, if_neg h]

/-- What is neither an expression nor a leaf of the source is gone into. -/
theorem cleanedAll_cons {n : Node} (hvalue : n.rule ≠ .value) (hterm : n.rule ≠ .term)
    (rest : List Node) : cleanedAll (n :: rest) = n.cleaned :: cleanedAll rest := by
  unfold cleanedAll cleaned
  rw [flattenSequencesAll, flattenValuesAll_cons (by simpa using hvalue),
    removeNoiseAll_cons (by rw [flattenValues_eq]; simpa using hterm)]

/-- The children of what is no sequence are cleaned. -/
theorem cleaned_of_ne {n : Node} (h : n.rule ≠ .sequence) :
    n.cleaned = ⟨n.id, n.rule, n.token, cleanedAll n.children⟩ := by
  rw [cleaned, flattenSequences_of_ne h, flattenValues_eq, removeNoise_eq]
  rfl

theorem cleanedAll_leaf (id : Nat) (t : Token) (rest : List Node) :
    cleanedAll (⟨id, .term, some t, []⟩ :: rest) =
      if t.kind.isNoise then cleanedAll rest
      else ⟨id, .term, some t, []⟩ :: cleanedAll rest := by
  simp only [cleanedAll, flattenSequencesAll, flattenSequences, flattenValuesAll, flattenValues,
    removeNoiseAll, kind?, leaf, Option.map_some, ↓reduceIte]

/-- An expression without an operator becomes its operand. -/
theorem cleanedAll_operand (id id₁ id₂ : Nat) {t : Token} (ht : t.kind.isNoise = false)
    (rest : List Node) :
    cleanedAll (⟨id, .value, none, [⟨id₁, .term, some t, []⟩, ⟨id₂, .tail, none, []⟩]⟩ :: rest) =
      ⟨id₁, .term, some t, []⟩ :: cleanedAll rest := by
  simp only [cleanedAll, flattenSequencesAll, flattenSequences, flattenValuesAll, removeNoiseAll,
    kind?, leaf, Option.map_some, ↓reduceIte, ht, Bool.false_eq_true]

/-- An expression with an operator stays. -/
theorem cleanedAll_binary (id id₁ id₂ id₃ id₄ : Nat) (left operator right : Token)
    (hleft : left.kind.isNoise = false) (hoperator : operator.kind.isNoise = false)
    (hright : right.kind.isNoise = false) (rest : List Node) :
    cleanedAll (⟨id, .value, none, [⟨id₁, .term, some left, []⟩,
        ⟨id₂, .tail, none, [⟨id₃, .term, some operator, []⟩, ⟨id₄, .term, some right, []⟩]⟩]⟩ ::
          rest) =
      ⟨id, .value, none, [⟨id₁, .term, some left, []⟩,
        ⟨id₂, .tail, none, [⟨id₃, .term, some operator, []⟩, ⟨id₄, .term, some right, []⟩]⟩]⟩ ::
          cleanedAll rest := by
  simp only [cleanedAll, flattenSequencesAll, flattenSequences, flattenValuesAll, flattenValues,
    removeNoiseAll, removeNoise, kind?, leaf, Option.map_some, ↓reduceIte, hleft, hoperator, hright,
    Bool.false_eq_true, reduceCtorEq]

/-! ### Numbered trees -/

/-- What the first three passes make of the children of a node of a derivation. -/
def tidied (last : Nat) (ds : List Outline) : List Node :=
  cleanedAll (Outline.numberAll last ds).1

theorem tidied_nil (last : Nat) : tidied last [] = [] := rfl

theorem tidied_noise (last : Nat) {t : Token} {kind : Kind} (h : t.kind = kind)
    (hnoise : kind.isNoise = true) (ds : List Outline) :
    tidied last (.leaf t :: ds) = tidied (last + 1) ds :=
  (cleanedAll_leaf _ t _).trans (if_pos (by rw [h, hnoise]))

theorem tidied_leaf (last : Nat) {t : Token} (h : t.kind.isNoise = false) (ds : List Outline) :
    tidied last (.leaf t :: ds) = ⟨last + 1, .term, some t, []⟩ :: tidied (last + 1) ds :=
  (cleanedAll_leaf _ t _).trans (if_neg (by rw [h]; decide))

theorem rule_number (d : Outline) (last : Nat) : (d.number last).1.rule = d.rule := by
  obtain ⟨rule, token, children⟩ := d
  rfl

theorem tidied_cons (last : Nat) {d : Outline} (hvalue : d.rule ≠ .value) (hterm : d.rule ≠ .term)
    (ds : List Outline) :
    tidied last (d :: ds) = (d.number last).1.cleaned :: tidied (d.number last).2 ds :=
  cleanedAll_cons (by rw [rule_number]; exact hvalue) (by rw [rule_number]; exact hterm) _

theorem cleaned_number (rule : Rule) (h : rule ≠ .sequence) (token : Option Token)
    (children : List Outline) (last : Nat) : ∃ id,
      (Outline.number last ⟨rule, token, children⟩).1.cleaned =
        ⟨id, rule, token, tidied last children⟩ :=
  ⟨_, cleaned_of_ne (by rw [rule_number]; exact h)⟩

theorem isNoise_of_isOperand {kind : Kind} (h : ParseState.isOperand kind) :
    kind.isNoise = false := by
  rcases Grammar.isOperand_iff.mp h with rfl | rfl
  all_goals rfl

/-- An expression becomes a tree that stands for it, whatever follows it. -/
theorem tidied_expression {e : Expression} (hproper : e.Proper) (last : Nat) (ds : List Outline) :
    ∃ n, tidied last (e.outline :: ds) = n :: tidied (e.outline.number last).2 ds ∧
      e.IsTree n := by
  obtain ⟨left, tail⟩ := e
  have hleft := isNoise_of_isOperand hproper.1
  rcases tail with _ | ⟨operator, right⟩
  · exact ⟨_, cleanedAll_operand _ _ _ hleft _, .operand _ left⟩
  · obtain ⟨hoperator, hright⟩ := hproper.2 operator right rfl
    have hoperator : operator.kind.isNoise = false := by
      rw [hoperator]
      rfl
    exact ⟨_, cleanedAll_binary _ _ _ _ _ left operator right hleft hoperator
      (isNoise_of_isOperand hright) _, .binary _ _ _ _ _ left operator right⟩

/-- A sequence that is a pair becomes a list. -/
theorem cleaned_pair (id id' : Nat) {s rest : Node} (hs : s.rule.isStatement = true) :
    cleaned ⟨id, .sequence, none, [⟨id', .wrapper, none, [s]⟩, rest]⟩ =
      ⟨id, .sequence, none, s.cleaned :: rest.cleaned.children⟩ := by
  have hvalue : s.flattenSequences.rule ≠ .value := by
    intro h
    rw [rule_flattenSequences] at h
    rw [h] at hs
    cases hs
  have hterm : s.flattenSequences.flattenValues.rule ≠ .term := by
    intro h
    rw [flattenValues_eq, rule_flattenSequences] at h
    rw [h] at hs
    cases hs
  rw [cleaned, flattenSequences, flattenValues_eq]
  simp only
  rw [flattenValuesAll_cons hvalue, removeNoise_eq]
  simp only
  rw [removeNoiseAll_cons hterm, cleaned, cleaned,
    removeNoise_eq rest.flattenSequences.flattenValues, flattenValues_eq rest.flattenSequences]

theorem isStatement_outline (s : Statement) (last : Nat) :
    (s.outline.number last).1.rule.isStatement = true := by
  cases s <;> rfl

theorem rule_sequenceOutline (program : List Statement) :
    (sequenceOutline program).rule = .sequence := by
  cases program <;> rfl

theorem tidied_sequence (last : Nat) (program : List Statement) (ds : List Outline) :
    tidied last (sequenceOutline program :: ds) =
      ((sequenceOutline program).number last).1.cleaned ::
        tidied ((sequenceOutline program).number last).2 ds :=
  tidied_cons last (by rw [rule_sequenceOutline]; decide) (by rw [rule_sequenceOutline]; decide) ds

mutual

/-- A statement becomes a tree that stands for it. -/
theorem isTree_cleaned : ∀ s : Statement, s.Proper → ∀ last,
    s.IsTree Statement.Ungrouped (s.outline.number last).1.cleaned
  | .ret word value delimiter, ⟨hword, hvalue, hdelimiter⟩, last => by
    obtain ⟨n, hn, htree⟩ := tidied_expression hvalue (last + 1) [.leaf delimiter]
    obtain ⟨id, hcleaned⟩ := cleaned_number .ret (by decide) none
      [.leaf word, value.outline, .leaf delimiter] last
    rw [tidied_noise _ hword rfl, hn, tidied_noise _ hdelimiter rfl, tidied_nil] at hcleaned
    rw [Statement.outline, hcleaned]
    exact .ret id word delimiter htree
  | .assign target sign value delimiter, ⟨htarget, hsign, hvalue, hdelimiter⟩, last => by
    have htarget : target.kind.isNoise = false := by
      rw [htarget]
      rfl
    obtain ⟨n, hn, htree⟩ := tidied_expression hvalue (last + 1 + 1) [.leaf delimiter]
    obtain ⟨id, hcleaned⟩ := cleaned_number .assign (by decide) none
      [.leaf target, .leaf sign, value.outline, .leaf delimiter] last
    rw [tidied_leaf _ htarget, tidied_noise _ hsign rfl, hn, tidied_noise _ hdelimiter rfl,
      tidied_nil] at hcleaned
    rw [Statement.outline, hcleaned]
    exact .assign id _ target sign delimiter htree
  | .cond word test opening thenBody closing elseWord elseOpening elseBody elseClosing,
      ⟨hword, htest, hopening, hthen, hclosing, helseWord, helseOpening, helse, helseClosing⟩,
      last => by
    obtain ⟨n, hn, htree⟩ := tidied_expression htest (last + 1)
      [.leaf opening, sequenceOutline thenBody, .leaf closing, .leaf elseWord, .leaf elseOpening,
        sequenceOutline elseBody, .leaf elseClosing]
    obtain ⟨id, hcleaned⟩ := cleaned_number .cond (by decide) none
      [.leaf word, test.outline, .leaf opening, sequenceOutline thenBody, .leaf closing,
        .leaf elseWord, .leaf elseOpening, sequenceOutline elseBody, .leaf elseClosing] last
    -- Words and braces are noise; of the nine parts the test and the two arms are left.
    rw [tidied_noise _ hword rfl, hn, tidied_noise _ hopening rfl, tidied_sequence,
      tidied_noise _ hclosing rfl, tidied_noise _ helseWord rfl, tidied_noise _ helseOpening rfl,
      tidied_sequence, tidied_noise _ helseClosing rfl, tidied_nil] at hcleaned
    rw [Statement.outline, hcleaned]
    exact .cond id word opening closing elseWord elseOpening elseClosing htree
      (isSequenceTree_cleaned thenBody hthen _) (isSequenceTree_cleaned elseBody helse _)
  | .loop word test opening body closing, ⟨hword, htest, hopening, hbody, hclosing⟩, last => by
    obtain ⟨n, hn, htree⟩ := tidied_expression htest (last + 1)
      [.leaf opening, sequenceOutline body, .leaf closing]
    obtain ⟨id, hcleaned⟩ := cleaned_number .loop (by decide) none
      [.leaf word, test.outline, .leaf opening, sequenceOutline body, .leaf closing] last
    rw [tidied_noise _ hword rfl, hn, tidied_noise _ hopening rfl, tidied_sequence,
      tidied_noise _ hclosing rfl, tidied_nil] at hcleaned
    rw [Statement.outline, hcleaned]
    exact .loop id word opening closing htree (isSequenceTree_cleaned body hbody _)

/-- **What the first three passes leave of a derivation is a tree of its statements,** which stand
one after the other below each sequence. -/
theorem isSequenceTree_cleaned : ∀ program : List Statement, ProperAll program → ∀ last,
    Statement.IsSequenceTree Statement.Ungrouped program
      ((sequenceOutline program).number last).1.cleaned
  | [], _, last => .mk _ rfl .nil
  | s :: rest, ⟨hs, hrest⟩, last => by
    have hcleaned : ((sequenceOutline (s :: rest)).number last).1.cleaned = ⟨_, .sequence, none,
        (s.outline.number last).1.cleaned :: ((sequenceOutline rest).number
          ((s.outline.number last).2 + 1)).1.cleaned.children⟩ :=
      cleaned_pair _ _ (isStatement_outline s last)
    rw [hcleaned]
    have hothers := isSequenceTree_cleaned rest hrest ((s.outline.number last).2 + 1)
    exact .mk _ rfl (.alone (isTree_cleaned s hs last) hothers.children_of_ungrouped)

end

end Node

/-! ### Leaves -/

/-- The tokens that stay when the shape of a program is dropped: names, numbers and operators. -/
def content (tokens : List Token) : List Token :=
  tokens.filter fun t => t.kind = .ident ∨ t.kind = .number ∨ t.kind = .op

theorem content_append (first second : List Token) :
    content (first ++ second) = content first ++ content second :=
  List.filter_append ..

theorem content_noise {t : Token} {kind : Kind} (h : t.kind = kind) (hnoise : kind.isNoise = true)
    (rest : List Token) : content (t :: rest) = content rest := by
  refine List.filter_cons_of_neg ?_
  rw [h]
  revert hnoise
  cases kind <;> simp [Kind.isNoise]

theorem content_cons {t : Token} (h : t.kind = .ident ∨ t.kind = .number ∨ t.kind = .op)
    (rest : List Token) : content (t :: rest) = t :: content rest :=
  List.filter_cons_of_pos (decide_eq_true h)

theorem Node.leaves_leaf (id : Nat) (t : Token) : leaves ⟨id, .term, some t, []⟩ = [t] := by
  rw [leaves_mk]
  rfl

/-- The leaves of the tree of an expression are its tokens. -/
theorem Expression.IsTree.leaves_eq {e : Expression} {n : Node} (h : e.IsTree n)
    (hproper : e.Proper) : n.leaves = content e.tokens := by
  have hoperand : ∀ {t : Token}, ParseState.isOperand t.kind →
      t.kind = .ident ∨ t.kind = .number ∨ t.kind = .op := fun ht =>
    (Grammar.isOperand_iff.mp ht).elim .inl fun hnumber => .inr (.inl hnumber)
  cases h with
  | operand id left =>
    rw [Node.leaves_leaf, tokens, content_cons (hoperand hproper.1)]
    rfl
  | binary id idLeft idTail idOperator idRight left operator right =>
    obtain ⟨hoperator, hright⟩ := hproper.2 operator right rfl
    rw [tokens, content_cons (hoperand hproper.1), content_cons (.inr (.inr hoperator)),
      content_cons (hoperand hright)]
    simp [Node.leaves_mk, content]

namespace Statement

variable {Arranged : List Statement → List Group → Prop}

mutual

/-- The leaves of the tree of a statement are its names, numbers and operators. -/
theorem leaves_isTree (harranged : ∀ program groups, Arranged program groups →
      groups.flatMap Group.statements = program) :
    ∀ {s : Statement} {n : Node}, IsTree Arranged s n → s.Proper → n.leaves = content s.tokens
  | .ret word value delimiter, _, .ret id _ _ tree, ⟨hword, hvalue, hdelimiter⟩ => by
    rw [tokens, content_noise hword rfl, content_append, content_noise hdelimiter rfl,
      ← tree.leaves_eq hvalue]
    simp [Node.leaves_mk, content]
  | .assign target sign value delimiter, _, .assign id idTarget _ _ _ tree,
      ⟨htarget, hsign, hvalue, hdelimiter⟩ => by
    rw [tokens, content_cons (.inl htarget), content_noise hsign rfl, content_append,
      content_noise hdelimiter rfl, ← tree.leaves_eq hvalue]
    simp [Node.leaves_mk, content]
  | .cond word test opening thenBody closing elseWord elseOpening elseBody elseClosing, _,
      .cond id _ _ _ _ _ _ tree thenTree elseTree,
      ⟨hword, htest, hopening, hthen, hclosing, helseWord, helseOpening, helse, helseClosing⟩ => by
    rw [tokens, content_noise hword rfl, content_append, content_noise hopening rfl, content_append,
      content_noise hclosing rfl, content_noise helseWord rfl, content_noise helseOpening rfl,
      content_append, content_noise helseClosing rfl, ← tree.leaves_eq htest,
      ← leaves_isSequenceTree harranged thenTree hthen,
      ← leaves_isSequenceTree harranged elseTree helse]
    simp [Node.leaves_mk, content]
  | .loop word test opening body closing, _, .loop id _ _ _ tree bodyTree,
      ⟨hword, htest, hopening, hbody, hclosing⟩ => by
    rw [tokens, content_noise hword rfl, content_append, content_noise hopening rfl, content_append,
      content_noise hclosing rfl, ← tree.leaves_eq htest,
      ← leaves_isSequenceTree harranged bodyTree hbody]
    simp [Node.leaves_mk, content]

theorem leavesAll_areTrees (harranged : ∀ program groups, Arranged program groups →
      groups.flatMap Group.statements = program) :
    ∀ {program : List Statement} {nodes : List Node}, AreTrees Arranged program nodes →
      ProperAll program → Node.leavesAll nodes = content (tokensAll program)
  | [], _, .nil, _ => rfl
  | s :: rest, _, .cons tree trees, ⟨hs, hrest⟩ => by
    rw [tokensAll, content_append, Node.leavesAll_cons, leaves_isTree harranged tree hs,
      leavesAll_areTrees harranged trees hrest]

theorem leavesAll_areGroupTrees (harranged : ∀ program groups, Arranged program groups →
      groups.flatMap Group.statements = program) :
    ∀ {groups : List Group} {nodes : List Node}, AreGroupTrees Arranged groups nodes →
      ProperAll (groups.flatMap Group.statements) →
      Node.leavesAll nodes = content (tokensAll (groups.flatMap Group.statements))
  | [], _, .nil, _ => rfl
  | .alone s :: rest, _, .alone tree trees, hproper => by
    obtain ⟨hs, hrest⟩ : s.Proper ∧ ProperAll (rest.flatMap Group.statements) := hproper
    rw [Node.leavesAll_cons, leaves_isTree harranged tree hs,
      leavesAll_areGroupTrees harranged trees hrest, ← content_append]
    rfl
  | .block run :: rest, _, .block id inside trees, hproper => by
    rw [List.flatMap_cons, Group.statements, properAll_append] at hproper
    rw [Node.leavesAll_cons, Node.leaves_of_ne (by simp),
      leavesAll_areTrees harranged inside hproper.1,
      leavesAll_areGroupTrees harranged trees hproper.2, ← content_append, ← tokensAll_append]
    rfl

/-- **The leaves of the tree of a sequence are its names, numbers and operators,** each once and in
order. -/
theorem leaves_isSequenceTree (harranged : ∀ program groups, Arranged program groups →
      groups.flatMap Group.statements = program) :
    ∀ {program : List Statement} {n : Node}, IsSequenceTree Arranged program n →
      ProperAll program → n.leaves = content (tokensAll program)
  | program, _, .mk id arranged trees, hproper => by
    have hprogram := harranged _ _ arranged
    have hleaves := leavesAll_areGroupTrees harranged trees (by rw [hprogram]; exact hproper)
    rw [Node.leaves_of_ne (by simp)]
    rwa [hprogram] at hleaves

end

end Statement

end BlockFlow
