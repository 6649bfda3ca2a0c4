import BlockFlow.Proofs.Tree.Cleaning
import BlockFlow.Proofs.Tree.Segments

/-!
# Grammatical trees

Between a derivation and its normal form lie the trees that some of the passes have been applied to
and others have not.  A tree is *grammatical* if it is built like one of these (`Node.Grammatical`):
its leaves have nothing below them, its expressions are an operand and a tail, and each of its
sequences is a flat list of statements or a pair of a wrapped statement and the rest.  Nothing is
said about noise, about operands that stand alone and about basic blocks, so none of the passes has
to be the first.

Derivations are grammatical (`Statement.grammatical_sequenceOutline`), and the passes that rearrange
statements keep trees grammatical (`Node.Grammatical.flattenSequences`,
`Node.Grammatical.segmentBlocks`).  They leave the parts of statements alone: leaves, expressions
and their tails (`Node.IsPart`).
-/

namespace BlockFlow

open Statement (ProperAll sequenceOutline)

/-- Whether nodes of the rule are parts of statements that hold no statements: leaves of the source,
expressions and their tails. -/
def Rule.isPart : Rule → Bool
  | term | value | tail => true
  | _ => false

namespace Node

theorem mk_eta (n : Node) : (⟨n.id, n.rule, n.token, n.children⟩ : Node) = n := by
  obtain ⟨id, rule, token, children⟩ := n
  rfl

/-! ### Parts of statements -/

/-- A leaf of the source that is more than noise, with nothing below it. -/
structure IsWord (n : Node) : Prop where
  rule_eq : n.rule = .term
  children_eq : n.children = []
  isNoise_eq : n.isNoise = false

/-- A leaf of the source, the tail of an expression, or an expression. -/
inductive IsPart : Node → Prop where
  | leaf {n : Node} (rule_eq : n.rule = .term) (children_eq : n.children = []) : IsPart n
  | tail {n : Node} (rule_eq : n.rule = .tail) (words : ∀ c ∈ n.children, c.IsWord) : IsPart n
  | value {n operand tail : Node} (rule_eq : n.rule = .value)
      (children_eq : n.children = [operand, tail]) (operand_word : operand.IsWord)
      (tail_eq : tail.rule = .tail) (words : ∀ c ∈ tail.children, c.IsWord) : IsPart n

theorem IsPart.rule_isPart {n : Node} (h : n.IsPart) : n.rule.isPart = true := by
  cases h with
  | leaf rule_eq => rw [rule_eq]; rfl
  | tail rule_eq => rw [rule_eq]; rfl
  | value rule_eq => rw [rule_eq]; rfl

theorem IsPart.rule_ne_sequence {n : Node} (h : n.IsPart) : n.rule ≠ .sequence := by
  intro hrule
  have := h.rule_isPart
  rw [hrule] at this
  cases this

theorem IsWord.isPart {n : Node} (h : n.IsWord) : n.IsPart :=
  .leaf h.rule_eq h.children_eq

/-- What holds of every part that has it below itself holds of all parts. -/
@[elab_as_elim] theorem IsPart.induct {P : Node → Prop}
    (h : ∀ n : Node, n.IsPart → (∀ c ∈ n.children, P c) → P n) {n : Node} (hn : n.IsPart) :
    P n := by
  have hleaf : ∀ {n : Node}, n.rule = .term → n.children = [] → P n := by
    intro n hrule hchildren
    exact h n (.leaf hrule hchildren) (by simp [hchildren])
  have htail : ∀ {n : Node}, n.rule = .tail → (∀ c ∈ n.children, c.IsWord) → P n := by
    intro n hrule hwords
    exact h n (.tail hrule hwords) fun c hc => hleaf (hwords c hc).rule_eq (hwords c hc).children_eq
  cases hn with
  | leaf rule_eq children_eq => exact hleaf rule_eq children_eq
  | tail rule_eq words => exact htail rule_eq words
  | value rule_eq children_eq operand_word tail_eq words =>
    apply h n (.value rule_eq children_eq operand_word tail_eq words)
    simp only [children_eq, List.mem_cons, List.not_mem_nil, or_false, forall_eq_or_imp, forall_eq]
    exact ⟨hleaf operand_word.rule_eq operand_word.children_eq, htail tail_eq words⟩

/-! ### Grammatical trees -/

/-- The tree has the form of a derivation, as far as the passes have left it.  Its sequences are
flat lists of statements, or, if `nested` says so, pairs of a wrapped statement and a sequence. -/
inductive Grammatical (nested : Bool) : Node → Prop where
  | part {n : Node} (h : n.IsPart) : Grammatical nested n
  | pair {s rest : Node} (is_nested : nested = true) (id id' : Nat) (token token' : Option Token)
      (statement : s.rule.isStatement = true) (rest_eq : rest.rule = .sequence)
      (first : Grammatical nested s) (others : Grammatical nested rest) :
      Grammatical nested ⟨id, .sequence, token, [⟨id', .wrapper, token', [s]⟩, rest]⟩
  | node {n : Node} (not_part : n.rule.isPart = false)
      (flat : n.rule = .sequence → ∀ c ∈ n.children, c.rule.isStatement = true)
      (below : ∀ c ∈ n.children, Grammatical nested c) : Grammatical nested n

theorem not_isPart_of_isStatement {rule : Rule} (h : rule.isStatement = true) :
    rule.isPart = false := by
  cases rule <;> first | rfl | cases h

/-- What has the rule of a part is one. -/
theorem Grammatical.isPart {nested : Bool} {n : Node} (h : n.Grammatical nested)
    (hrule : n.rule.isPart = true) : n.IsPart := by
  cases h with
  | part h => exact h
  | pair => cases hrule
  | node not_part => rw [not_part] at hrule; cases hrule

/-- Unless pairs are let in, sequences are flat. -/
theorem Grammatical.flat_of_false {n : Node} (h : n.Grammatical false)
    (hrule : n.rule = .sequence) :
    (∀ c ∈ n.children, c.rule.isStatement = true) ∧ ∀ c ∈ n.children, c.Grammatical false := by
  cases h with
  | part h => exact absurd hrule h.rule_ne_sequence
  | pair is_nested => cases is_nested
  | node _ flat below => exact ⟨flat hrule, below⟩

/-- Letting pairs in excludes nothing. -/
theorem Grammatical.of_false {nested : Bool} {n : Node} (h : n.Grammatical false) :
    n.Grammatical nested := by
  induction h with
  | part h => exact .part h
  | pair is_nested => cases is_nested
  | node not_part flat _ ih => exact .node not_part flat ih

/-- What holds of every pair of trees that have it, and of every other tree whose children are parts
or have it, holds of all grammatical trees but parts. -/
@[elab_as_elim] theorem Grammatical.induct {nested : Bool} {P : Node → Prop}
    (pair : ∀ (s rest : Node) (id id' : Nat) (token token' : Option Token),
      s.rule.isStatement = true → rest.rule = .sequence → P s → P rest →
        P ⟨id, .sequence, token, [⟨id', .wrapper, token', [s]⟩, rest]⟩)
    (node : ∀ n : Node, n.rule.isPart = false →
      (n.rule = .sequence → ∀ c ∈ n.children, c.rule.isStatement = true) →
        (∀ c ∈ n.children, c.IsPart ∨ c.rule.isPart = false ∧ P c) → P n)
    {n : Node} (hn : n.Grammatical nested) (hrule : n.rule.isPart = false) : P n := by
  induction hn with
  | part h =>
    rw [h.rule_isPart] at hrule
    cases hrule
  | @pair s rest _ id id' token token' statement rest_eq _ _ ihFirst ihOthers =>
    exact pair s rest id id' token token' statement rest_eq
      (ihFirst (not_isPart_of_isStatement statement)) (ihOthers (by rw [rest_eq]; rfl))
  | @node n not_part flat below ih =>
    refine node n not_part flat fun c hc => ?_
    cases hpart : c.rule.isPart with
    | true => exact .inl ((below c hc).isPart hpart)
    | false => exact .inr ⟨rfl, ih c hc hpart⟩

/-! ### Flattening sequences -/

theorem flattenSequencesAll_eq_map (ns : List Node) :
    flattenSequencesAll ns = ns.map flattenSequences := by
  induction ns with
  | nil => rfl
  | cons n rest ih => rw [flattenSequencesAll, ih, List.map_cons]

/-- What is no pair of a wrapped statement and a rest is gone into. -/
theorem flattenSequences_of_flat {n : Node}
    (h : n.rule = .sequence → ∀ c ∈ n.children, c.rule.isStatement = true) :
    n.flattenSequences = ⟨n.id, n.rule, n.token, n.children.map flattenSequences⟩ := by
  unfold flattenSequences
  split
  · cases h rfl _ List.mem_cons_self
  · cases h rfl _ List.mem_cons_self
  · rw [flattenSequencesAll_eq_map]

/-- A tree without pairs stays as it is if the trees below it do. -/
theorem flattenSequences_eq_self {n : Node}
    (h : n.rule = .sequence → ∀ c ∈ n.children, c.rule.isStatement = true)
    (hbelow : ∀ c ∈ n.children, c.flattenSequences = c) : n.flattenSequences = n := by
  rw [flattenSequences_of_flat h, List.map_congr_left hbelow, List.map_id', mk_eta]

theorem IsPart.flattenSequences_eq {n : Node} (h : n.IsPart) : n.flattenSequences = n := by
  refine IsPart.induct ?_ h
  intro n hn ih
  exact flattenSequences_eq_self (fun hrule => absurd hrule hn.rule_ne_sequence) ih

/-- **Flattening leaves no pair.** -/
theorem Grammatical.flattenSequences {nested : Bool} {n : Node} (h : n.Grammatical nested) :
    n.flattenSequences.Grammatical false := by
  induction h with
  | part h =>
    rw [h.flattenSequences_eq]
    exact .part h
  | @pair s rest _ id id' token token' statement rest_eq _ _ ihFirst ihOthers =>
    -- What is left of the rest is a flat sequence, and the statement is put in front of it.
    obtain ⟨hflat, hbelow⟩ := ihOthers.flat_of_false ((rule_flattenSequences rest).trans rest_eq)
    rw [Node.flattenSequences]
    refine .node rfl (fun _ => ?_) ?_
    · exact List.forall_mem_cons.mpr ⟨by rwa [rule_flattenSequences], hflat⟩
    · exact List.forall_mem_cons.mpr ⟨ihFirst, hbelow⟩
  | @node n not_part flat _ ih =>
    rw [flattenSequences_of_flat flat]
    refine .node not_part (fun hrule => ?_) ?_
    · simpa using flat hrule
    · simpa using ih

/-- Flattening leaves trees without pairs alone. -/
theorem Grammatical.flattenSequences_eq {n : Node} (h : n.Grammatical false) :
    n.flattenSequences = n := by
  induction h with
  | part h => exact h.flattenSequences_eq
  | pair is_nested => cases is_nested
  | node _ flat _ ih => exact flattenSequences_eq_self flat ih

/-! ### Forming basic blocks -/

theorem segmentBlocks_of_ne {n : Node} (h : n.rule ≠ .sequence) (last : Nat) :
    n.segmentBlocks last = (⟨n.id, n.rule, n.token, (segmentBlocksAll last n.children).1⟩,
      (segmentBlocksAll last n.children).2) := by
  obtain ⟨id, rule, token, children⟩ := n
  cases rule with
  | sequence => exact absurd rfl h
  | _ => rfl

theorem segmentBlocks_of_sequence {n : Node} (h : n.rule = .sequence) (last : Nat) :
    n.segmentBlocks last =
      (⟨n.id, n.rule, n.token, numberSegments last (segmentsFrom [] (segmentBlocksAll
        (last + blockCount (segmentsFrom [] n.children)) n.children).1)⟩,
        (segmentBlocksAll (last + blockCount (segmentsFrom [] n.children)) n.children).2) := by
  obtain ⟨id, rule, token, children⟩ := n
  cases h
  rfl

/-- The trees that are gone into come out one by one. -/
theorem mem_segmentBlocksAll {ns : List Node} {last : Nat} {n : Node}
    (h : n ∈ (segmentBlocksAll last ns).1) :
    ∃ c ∈ ns, ∃ last', n = (c.segmentBlocks last').1 := by
  induction ns generalizing last with
  | nil => cases h
  | cons c rest ih =>
    rw [segmentBlocksAll] at h
    rcases List.mem_cons.mp h with rfl | h
    · exact ⟨c, List.mem_cons_self, last, rfl⟩
    · obtain ⟨c', hc', last', rfl⟩ := ih h
      exact ⟨c', List.mem_cons_of_mem c hc', last', rfl⟩

/-- Trees that stay as they are draw no numbers. -/
theorem segmentBlocksAll_eq_self {ns : List Node}
    (h : ∀ c ∈ ns, ∀ last, c.segmentBlocks last = (c, last)) (last : Nat) :
    segmentBlocksAll last ns = (ns, last) := by
  induction ns generalizing last with
  | nil => rfl
  | cons c rest ih =>
    obtain ⟨hc, hrest⟩ := List.forall_mem_cons.mp h
    rw [segmentBlocksAll]
    simp only [hc, ih hrest]

theorem blockCount_single (s : Node) (rest : List Segment) :
    blockCount (.single s :: rest) = blockCount rest := by
  simp [blockCount]

theorem blockCount_block (statements : List Node) (rest : List Segment) :
    blockCount (.block statements :: rest) = blockCount rest + 1 := by
  simp [blockCount]

theorem blockCount_append (first second : List Segment) :
    blockCount (first ++ second) = blockCount first + blockCount second :=
  List.countP_append

theorem blockCount_pendingSegment (pending : List Node) :
    blockCount (pendingSegment pending) = if pending.isEmpty then 0 else 1 := by
  unfold pendingSegment
  split <;> rfl

/-- How many blocks are formed depends on the rules of the statements only. -/
theorem blockCount_segmentsFrom {ns ns' : List Node} (h : ns.map rule = ns'.map rule)
    {pending pending' : List Node} (hpending : pending.isEmpty = pending'.isEmpty) :
    blockCount (segmentsFrom pending ns) = blockCount (segmentsFrom pending' ns') := by
  induction ns generalizing ns' pending pending' with
  | nil =>
    obtain rfl := List.map_eq_nil_iff.mp h.symm
    rw [segmentsFrom, segmentsFrom, blockCount_pendingSegment, blockCount_pendingSegment, hpending]
  | cons s rest ih =>
    obtain ⟨s', rest', rfl, hs, hrest⟩ := List.map_eq_cons_iff.mp h.symm
    rw [segmentsFrom, segmentsFrom, hs]
    split
    · apply ih hrest.symm
      rw [List.isEmpty_eq_false_iff.mpr (by simp),
        List.isEmpty_eq_false_iff.mpr (by simp)]
    · rw [blockCount_block, blockCount_block, ih hrest.symm rfl]
    · rw [blockCount_append, blockCount_append, blockCount_single, blockCount_single,
        blockCount_pendingSegment, blockCount_pendingSegment, hpending, ih hrest.symm rfl]

/-- Where there is neither an assignment nor a return every statement stands alone. -/
theorem segmentsFrom_eq_map_single {nodes : List Node}
    (h : ∀ s ∈ nodes, s.rule ≠ .assign ∧ s.rule ≠ .ret) :
    segmentsFrom [] nodes = nodes.map .single := by
  induction nodes with
  | nil => rfl
  | cons s rest ih =>
    obtain ⟨hs, hrest⟩ := List.forall_mem_cons.mp h
    rw [segmentsFrom_of_ne hs.1 hs.2, ih hrest]
    rfl

theorem blockCount_map_single (nodes : List Node) : blockCount (nodes.map .single) = 0 := by
  simp [blockCount]

theorem numberSegments_map_single (last : Nat) (nodes : List Node) :
    numberSegments last (nodes.map .single) = nodes := by
  induction nodes with
  | nil => rfl
  | cons s rest ih => rw [List.map_cons, numberSegments, ih]

/-- A tree whose sequence needs no grouping stays as it is if the trees below it do. -/
theorem segmentBlocks_eq_self {n : Node}
    (h : n.rule = .sequence → ∀ c ∈ n.children, c.rule ≠ .assign ∧ c.rule ≠ .ret)
    (hbelow : ∀ c ∈ n.children, ∀ last, c.segmentBlocks last = (c, last)) (last : Nat) :
    n.segmentBlocks last = (n, last) := by
  have hall := segmentBlocksAll_eq_self hbelow
  by_cases hrule : n.rule = .sequence
  · rw [segmentBlocks_of_sequence hrule, segmentsFrom_eq_map_single (h hrule),
      blockCount_map_single, hall]
    simp only [segmentsFrom_eq_map_single (h hrule), numberSegments_map_single, mk_eta,
      Nat.add_zero]
  · rw [segmentBlocks_of_ne hrule, hall]
    simp only [mk_eta]

theorem IsPart.segmentBlocks_eq {n : Node} (h : n.IsPart) :
    ∀ last, n.segmentBlocks last = (n, last) := by
  refine IsPart.induct ?_ h
  intro n hn ih
  exact segmentBlocks_eq_self (fun hrule => absurd hrule hn.rule_ne_sequence) ih

/-- The nodes of groups are the statements that stand alone and new blocks of the others. -/
theorem mem_numberSegments {segments : List Segment} {last : Nat} {n : Node}
    (h : n ∈ numberSegments last segments) : .single n ∈ segments ∨ ∃ id statements,
      n = ⟨id, .basicBlock, none, statements⟩ ∧ .block statements ∈ segments := by
  induction segments generalizing last with
  | nil => cases h
  | cons segment rest ih =>
    have hothers : ∀ {last'}, n ∈ numberSegments last' rest →
        .single n ∈ segment :: rest ∨ ∃ id statements,
          n = ⟨id, .basicBlock, none, statements⟩ ∧ .block statements ∈ segment :: rest := by
      intro last' hn
      rcases ih hn with hn | ⟨id, statements, rfl, hstatements⟩
      · exact .inl (List.mem_cons_of_mem _ hn)
      · exact .inr ⟨id, statements, rfl, List.mem_cons_of_mem _ hstatements⟩
    cases segment with
    | single s =>
      rcases List.mem_cons.mp h with rfl | h
      · exact .inl List.mem_cons_self
      · exact hothers h
    | block statements =>
      rcases List.mem_cons.mp h with rfl | h
      · exact .inr ⟨last + 1, statements, rfl, List.mem_cons_self⟩
      · exact hothers h

theorem mem_of_mem_segmentsFrom {nodes : List Node} {segment : Segment}
    (h : segment ∈ segmentsFrom [] nodes) : ∀ s ∈ segment.statements, s ∈ nodes := by
  intro s hs
  have hmem := List.mem_flatMap.mpr ⟨segment, h, hs⟩
  rwa [flatMap_segmentsFrom] at hmem

/-- What stands below a sequence of which the statements were gone into and grouped: one of these
statements, or a new block of them. -/
theorem mem_children_segmentBlocks {n : Node} (hrule : n.rule = .sequence) {last : Nat} {c : Node}
    (h : c ∈ (n.segmentBlocks last).1.children) :
    (∃ s ∈ n.children, ∃ last', c = (s.segmentBlocks last').1) ∨ ∃ id statements,
      c = ⟨id, .basicBlock, none, statements⟩ ∧
        ∀ s ∈ statements, ∃ s' ∈ n.children, ∃ last', s = (s'.segmentBlocks last').1 := by
  obtain ⟨last', hchildren⟩ := children_segmentBlocks hrule last
  rw [hchildren] at h
  rcases mem_numberSegments h with h | ⟨id, statements, rfl, hstatements⟩
  · exact .inl (mem_segmentBlocksAll (mem_of_mem_segmentsFrom h c (List.mem_singleton.mpr rfl)))
  · exact .inr ⟨id, statements, rfl, fun s hs =>
      mem_segmentBlocksAll (mem_of_mem_segmentsFrom hstatements s hs)⟩

/-- A pair has nothing to group. -/
theorem segmentBlocks_pair {s rest : Node} (hrest : rest.rule = .sequence) (id id' : Nat)
    (token token' : Option Token) (last : Nat) :
    segmentBlocks last ⟨id, .sequence, token, [⟨id', .wrapper, token', [s]⟩, rest]⟩ =
      (⟨id, .sequence, token, [⟨id', .wrapper, token', [(s.segmentBlocks last).1]⟩,
        (rest.segmentBlocks (s.segmentBlocks last).2).1]⟩,
        (rest.segmentBlocks (s.segmentBlocks last).2).2) := by
  have hsingle : ∀ s rest : Node, rest.rule = .sequence →
      segmentsFrom [] [⟨id', .wrapper, token', [s]⟩, rest] =
        [⟨id', .wrapper, token', [s]⟩, rest].map .single := by
    intro s rest hrest
    exact segmentsFrom_eq_map_single (by simp [hrest])
  rw [segmentBlocks_of_sequence rfl, hsingle s rest hrest, blockCount_map_single]
  simp only [segmentBlocksAll, segmentBlocks, Nat.add_zero]
  rw [hsingle _ _ (by simpa using hrest), numberSegments_map_single]

/-- **Forming blocks keeps a tree grammatical.** -/
theorem Grammatical.segmentBlocks {nested : Bool} {n : Node} (h : n.Grammatical nested) :
    ∀ last, (n.segmentBlocks last).1.Grammatical nested := by
  induction h with
  | part h =>
    intro last
    rw [h.segmentBlocks_eq]
    exact .part h
  | @pair s rest is_nested id id' token token' statement rest_eq _ _ ihFirst ihOthers =>
    intro last
    rw [segmentBlocks_pair rest_eq]
    exact .pair is_nested id id' token token' (by simpa using statement) (by simpa using rest_eq)
      (ihFirst _) (ihOthers _)
  | @node n not_part flat _ ih =>
    intro last
    by_cases hrule : n.rule = .sequence
    · refine .node (by simpa using not_part) (fun _ c hc => ?_) fun c hc => ?_
      · rcases mem_children_segmentBlocks hrule hc with ⟨s, hs, last', rfl⟩ | ⟨id, ss, rfl, -⟩
        · simpa using flat hrule s hs
        · rfl
      · rcases mem_children_segmentBlocks hrule hc with ⟨s, hs, last', rfl⟩ | ⟨id, ss, rfl, hss⟩
        · exact ih s hs last'
        · refine .node rfl (fun h => by cases h) fun s hs => ?_
          obtain ⟨s', hs', last', rfl⟩ := hss s hs
          exact ih s' hs' last'
    · refine .node (by simpa using not_part) (fun h => ?_) fun c hc => ?_
      · exact absurd (by simpa using h) hrule
      · rw [children_segmentBlocks_of_ne hrule] at hc
        obtain ⟨s, hs, last', rfl⟩ := mem_segmentBlocksAll hc
        exact ih s hs last'

end Node

/-! ### Derivations -/

theorem Outline.mem_numberAll {ds : List Outline} {last : Nat} {n : Node}
    (h : n ∈ (Outline.numberAll last ds).1) : ∃ d ∈ ds, ∃ last', n = (d.number last').1 := by
  induction ds generalizing last with
  | nil => cases h
  | cons d rest ih =>
    rcases List.mem_cons.mp h with rfl | h
    · exact ⟨d, List.mem_cons_self, last, rfl⟩
    · obtain ⟨d', hd', last', rfl⟩ := ih h
      exact ⟨d', List.mem_cons_of_mem d hd', last', rfl⟩

/-- The leaf of an operand or an operator is a word. -/
theorem Node.isWord_leaf {t : Token} (h : t.kind.isNoise = false) (last : Nat) :
    ((Outline.leaf t).number last).1.IsWord :=
  ⟨rfl, rfl, by simpa [Outline.leaf, Outline.number, Node.isNoise, Node.kind?] using h⟩

/-- The tree of an expression is a part. -/
theorem Expression.isPart_outline {e : Expression} (h : e.Proper) (last : Nat) :
    (e.outline.number last).1.IsPart := by
  obtain ⟨left, tail⟩ := e
  have hleft := Node.isWord_leaf (Node.isNoise_of_isOperand h.1) last
  rcases tail with _ | ⟨operator, right⟩
  · exact .value rfl rfl hleft rfl fun c hc => absurd hc List.not_mem_nil
  · obtain ⟨hoperator, hright⟩ := h.2 operator right rfl
    have hoperator : operator.kind.isNoise = false := by
      rw [hoperator]
      rfl
    refine .value rfl rfl hleft rfl (List.forall_mem_cons.mpr ⟨Node.isWord_leaf hoperator _, ?_⟩)
    exact List.forall_mem_singleton.mpr (Node.isWord_leaf (Node.isNoise_of_isOperand hright) _)

namespace Statement

theorem grammatical_leaf (t : Token) (last : Nat) :
    ((Outline.leaf t).number last).1.Grammatical true :=
  .part (.leaf rfl rfl)

theorem grammatical_expression {e : Expression} (h : e.Proper) (last : Nat) :
    (e.outline.number last).1.Grammatical true :=
  .part (Expression.isPart_outline h last)

/-- The tree of a statement is grammatical if those of its constituents are. -/
theorem grammatical_of_constituents {rule : Rule} (hpart : rule.isPart = false)
    (hrule : rule ≠ .sequence) {token : Option Token} {ds : List Outline}
    (h : ∀ d ∈ ds, ∀ last, (d.number last).1.Grammatical true) (last : Nat) :
    (Outline.number last ⟨rule, token, ds⟩).1.Grammatical true := by
  refine .node hpart (fun h => absurd h hrule) fun c hc => ?_
  obtain ⟨d, hd, last', rfl⟩ := Outline.mem_numberAll hc
  exact h d hd last'

mutual

/-- The tree of a statement is grammatical. -/
theorem grammatical_outline : ∀ s : Statement, s.Proper → ∀ last,
    (s.outline.number last).1.Grammatical true
  | .ret word value delimiter, ⟨_, hvalue, _⟩, last => by
    apply grammatical_of_constituents rfl (by decide)
    simp [grammatical_leaf, grammatical_expression hvalue]
  | .assign target sign value delimiter, ⟨_, _, hvalue, _⟩, last => by
    apply grammatical_of_constituents rfl (by decide)
    simp [grammatical_leaf, grammatical_expression hvalue]
  | .cond word test opening thenBody closing elseWord elseOpening elseBody elseClosing,
      ⟨_, htest, _, hthen, _, _, _, helse, _⟩, last => by
    have hthenBody := grammatical_sequenceOutline thenBody hthen
    have helseBody := grammatical_sequenceOutline elseBody helse
    apply grammatical_of_constituents rfl (by decide)
    simp [grammatical_leaf, grammatical_expression htest, hthenBody, helseBody]
  | .loop word test opening body closing, ⟨_, htest, _, hbody, _⟩, last => by
    have hbody := grammatical_sequenceOutline body hbody
    apply grammatical_of_constituents rfl (by decide)
    simp [grammatical_leaf, grammatical_expression htest, hbody]

/-- **The derivation of a program is grammatical.** -/
theorem grammatical_sequenceOutline : ∀ program : List Statement, ProperAll program → ∀ last,
    ((sequenceOutline program).number last).1.Grammatical true
  | [], _, last => .node rfl (fun _ c hc => absurd hc List.not_mem_nil)
    fun c hc => absurd hc List.not_mem_nil
  | s :: rest, ⟨hs, hrest⟩, last => by
    have hsequence : ∀ last, ((sequenceOutline rest).number last).1.rule = .sequence := by
      intro last
      rw [Node.rule_number, Node.rule_sequenceOutline]
    exact .pair rfl _ _ none none (Node.isStatement_outline s last) (hsequence _)
      (grammatical_outline s hs _) (grammatical_sequenceOutline rest hrest _)

end

end Statement

end BlockFlow
