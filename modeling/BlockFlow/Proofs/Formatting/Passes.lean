import BlockFlow.Proofs.Formatting.Parsing
import BlockFlow.Proofs.Tree.NormalForm

/-!
# Normalisation sees neither spans nor numbers

A bare tree has bare tokens, and all its nodes have the number zero.  Each pass of normalisation
commutes with making a tree bare, whatever the tree looks like and wherever the numbering of new
nodes starts; so trees that are equal when bare have normal forms that are (`bare_normalize`), and
the same names occur in them (`Node.names_bare`).
-/

namespace BlockFlow

/-! ### Bare trees -/

namespace Node

mutual

/-- The tree without spans and numbers. -/
def bare : Node → Node
  | ⟨_, rule, token, children⟩ => ⟨0, rule, token.map Token.bare, bareAll children⟩

/-- The trees without spans and numbers. -/
def bareAll : List Node → List Node
  | [] => []
  | n :: rest => n.bare :: bareAll rest

end

theorem bareAll_eq_map (ns : List Node) : bareAll ns = ns.map bare := by
  induction ns with
  | nil => rfl
  | cons n rest ih => rw [bareAll, ih, List.map_cons]

@[simp] theorem rule_bare (n : Node) : n.bare.rule = n.rule := by
  obtain ⟨id, rule, token, children⟩ := n
  rw [bare]

@[simp] theorem token_bare (n : Node) : n.bare.token = n.token.map Token.bare := by
  obtain ⟨id, rule, token, children⟩ := n
  rw [bare]

@[simp] theorem children_bare (n : Node) : n.bare.children = bareAll n.children := by
  obtain ⟨id, rule, token, children⟩ := n
  rw [bare]

@[simp] theorem kind?_bare (n : Node) : n.bare.kind? = n.kind? := by
  rw [kind?, kind?, rule_bare, token_bare, Option.map_map]
  rfl

theorem leaf_bare (n : Node) : n.bare.leaf = n.leaf.bare := by
  obtain ⟨id, rule, token, children⟩ := n
  rw [bare, leaf, leaf, bare, bareAll]

/-- What a tree with given parts was before it was made bare. -/
theorem exists_of_bare_eq {n : Node} {id : Nat} {rule : Rule} {token : Option Token}
    {children : List Node} (h : n.bare = ⟨id, rule, token, children⟩) :
    ∃ id' token' children', n = ⟨id', rule, token', children'⟩ ∧ bareAll children' = children := by
  obtain ⟨id', rule', token', children'⟩ := n
  rw [bare] at h
  cases h
  exact ⟨id', token', children', rfl, rfl⟩

theorem exists_of_bareAll_eq_pair {ns : List Node} {first second : Node}
    (h : bareAll ns = [first, second]) :
    ∃ first' second', ns = [first', second'] ∧ first'.bare = first ∧ second'.bare = second := by
  rw [bareAll_eq_map] at h
  obtain ⟨first', rest, rfl, hfirst, hrest⟩ := List.map_eq_cons_iff.mp h
  obtain ⟨second', rest', rfl, hsecond, hnil⟩ := List.map_eq_cons_iff.mp hrest
  obtain rfl := List.map_eq_nil_iff.mp hnil
  exact ⟨first', second', rfl, hfirst, hsecond⟩

theorem bareAll_eq_nil {ns : List Node} (h : bareAll ns = []) : ns = [] := by
  rw [bareAll_eq_map] at h
  exact List.map_eq_nil_iff.mp h

mutual

/-- Making a tree bare twice is making it bare once. -/
theorem bare_bare : ∀ n : Node, n.bare.bare = n.bare
  | ⟨id, rule, token, children⟩ => by
    rw [bare, bare, bareAll_bareAll children, Option.map_map]
    rfl

theorem bareAll_bareAll : ∀ ns : List Node, bareAll (bareAll ns) = bareAll ns
  | [] => rfl
  | n :: rest => by rw [bareAll, bareAll, bare_bare n, bareAll_bareAll rest]

end

/-! ### The first three passes -/

/-- Flattening sequences sees neither spans nor numbers. -/
theorem flattenSequences_bare (n : Node) : n.bare.flattenSequences = n.flattenSequences.bare := by
  have hboth : (∀ n : Node, n.bare.flattenSequences = n.flattenSequences.bare) ∧
      ∀ ns, flattenSequencesAll (bareAll ns) = bareAll (flattenSequencesAll ns) := by
    refine flattenSequences.mutual_induct _ _ ?empty ?pair ?other ?nil ?cons
    case empty =>
      intro id token id' token' rest ih
      simp only [bare, bareAll, flattenSequences, ih, children_bare]
    case pair =>
      intro id token id' token' statement more rest ihStatement ihRest
      simp only [bare, bareAll, flattenSequences, ihStatement, ihRest, children_bare]
    case other =>
      intro id rule token children hempty hpair ih
      -- What is no pair of a wrapped statement and a rest is none when it is bare, either.
      have hempty' : ∀ id token rest, rule = .sequence →
          bareAll children = [⟨id, .wrapper, token, []⟩, rest] → False := by
        intro id token rest hrule hchildren
        obtain ⟨wrapped, rest', rfl, hwrapped, -⟩ := exists_of_bareAll_eq_pair hchildren
        obtain ⟨id', token', inner, rfl, hinner⟩ := exists_of_bare_eq hwrapped
        obtain rfl := bareAll_eq_nil hinner
        exact hempty id' token' rest' hrule rfl
      have hpair' : ∀ id token statement more rest, rule = .sequence →
          bareAll children = [⟨id, .wrapper, token, statement :: more⟩, rest] → False := by
        intro id token statement more rest hrule hchildren
        obtain ⟨wrapped, rest', rfl, hwrapped, -⟩ := exists_of_bareAll_eq_pair hchildren
        obtain ⟨id', token', inner, rfl, hinner⟩ := exists_of_bare_eq hwrapped
        cases inner with
        | nil => cases hinner
        | cons statement' more' => exact hpair id' token' statement' more' rest' hrule rfl
      rw [bare, flattenSequences, flattenSequences, bare, ih]
      exacts [hempty, hpair, hempty', hpair']
    case nil => rfl
    case cons =>
      intro child rest ihChild ihRest
      simp only [bareAll, flattenSequencesAll, ihChild, ihRest]
  exact hboth.1 n

/-- Flattening expressions sees neither spans nor numbers. -/
theorem flattenValues_bare (n : Node) : n.bare.flattenValues = n.flattenValues.bare := by
  have hboth : (∀ n : Node, n.bare.flattenValues = n.flattenValues.bare) ∧
      ∀ ns, flattenValuesAll (bareAll ns) = bareAll (flattenValuesAll ns) := by
    refine flattenValues.mutual_induct _ _ ?node ?nil ?operand ?other
    case node =>
      intro id rule token children ih
      simp only [bare, flattenValues, ih]
    case nil => rfl
    case operand =>
      intro id token operand id' token' rest ih
      simp only [bare, bareAll, flattenValuesAll, ih, leaf_bare]
    case other =>
      intro child rest hother ihChild ihRest
      have hother' : ∀ id token operand id' token',
          child.bare = ⟨id, .value, token, [operand, ⟨id', .tail, token', []⟩]⟩ → False := by
        intro id token operand id' token' hchild
        obtain ⟨i, t, children, rfl, hchildren⟩ := exists_of_bare_eq hchild
        obtain ⟨operand', tail, rfl, -, htail⟩ := exists_of_bareAll_eq_pair hchildren
        obtain ⟨i', t', inner, rfl, hinner⟩ := exists_of_bare_eq htail
        obtain rfl := bareAll_eq_nil hinner
        exact hother i t operand' i' t' rfl
      rw [bareAll, flattenValuesAll, flattenValuesAll, bareAll, ihChild, ihRest]
      exacts [hother, hother']
  exact hboth.1 n

/-- Dropping noise sees neither spans nor numbers. -/
theorem removeNoise_bare (n : Node) : n.bare.removeNoise = n.removeNoise.bare := by
  have hboth : (∀ n : Node, n.bare.removeNoise = n.removeNoise.bare) ∧
      ∀ ns, removeNoiseAll (bareAll ns) = bareAll (removeNoiseAll ns) := by
    refine removeNoise.mutual_induct _ _ ?node ?nil ?noise ?leaf ?other
    case node =>
      intro id rule token children ih
      simp only [bare, removeNoise, ih]
    case nil => rfl
    case noise =>
      intro child rest kind hkind hnoise ih
      simp only [bareAll, removeNoiseAll, kind?_bare, hkind, hnoise, if_true, ih]
    case leaf =>
      intro child rest kind hkind hnoise ih
      simp only [bareAll, removeNoiseAll, kind?_bare, hkind, if_neg hnoise, ih, leaf_bare]
    case other =>
      intro child rest hkind ihChild ihRest
      simp only [bareAll, removeNoiseAll, kind?_bare, hkind, ihChild, ihRest]
  exact hboth.1 n

/-! ### Basic blocks -/

/-- The group without spans and numbers. -/
def Segment.bare : Segment → Segment
  | .single s => .single s.bare
  | .block statements => .block (bareAll statements)

theorem pendingSegment_bare (pending : List Node) :
    pendingSegment (bareAll pending) = (pendingSegment pending).map Segment.bare := by
  cases pending <;> rfl

/-- Grouping reads the rules of statements only. -/
theorem segmentsFrom_bare (pending statements : List Node) :
    segmentsFrom (bareAll pending) (bareAll statements) =
      (segmentsFrom pending statements).map Segment.bare := by
  induction statements generalizing pending with
  | nil => exact pendingSegment_bare pending
  | cons s rest ih =>
    have hpush : bareAll pending ++ [s.bare] = bareAll (pending ++ [s]) := by
      simp only [bareAll_eq_map, List.map_append, List.map_cons, List.map_nil]
    rw [bareAll, segmentsFrom, segmentsFrom, rule_bare]
    split
    · rw [hpush, ih]
    · rw [hpush, List.map_cons, ← ih]
      rfl
    · rw [pendingSegment_bare, List.map_append, List.map_cons, ← ih]
      rfl

/-- The nodes of groups are the same up to spans and numbers wherever the numbering starts. -/
theorem bareAll_numberSegments (last last' : Nat) (segments : List Segment) :
    bareAll (numberSegments last (segments.map Segment.bare)) =
      bareAll (numberSegments last' segments) := by
  induction segments generalizing last last' with
  | nil => rfl
  | cons segment rest ih =>
    cases segment with
    | single s =>
      rw [List.map_cons, Segment.bare, numberSegments, numberSegments, bareAll, bareAll, bare_bare,
        ih last last']
    | block statements =>
      rw [List.map_cons, Segment.bare, numberSegments, numberSegments, bareAll, bareAll, bare, bare,
        bareAll_bareAll, ih (last + 1) (last' + 1)]

theorem bareAll_segments {ns ns' : List Node} (h : bareAll ns = bareAll ns') (last last' : Nat) :
    bareAll (numberSegments last (segmentsFrom [] ns)) =
      bareAll (numberSegments last' (segmentsFrom [] ns')) := by
  rw [← bareAll_numberSegments 0 last, ← bareAll_numberSegments 0 last', ← segmentsFrom_bare,
    ← segmentsFrom_bare, h]

mutual

/-- Forming basic blocks sees neither spans nor numbers, and where the numbering of the blocks
starts does not matter either. -/
theorem bare_segmentBlocks : ∀ (n : Node) (last last' : Nat),
    (n.bare.segmentBlocks last).1.bare = (n.segmentBlocks last').1.bare
  | ⟨id, rule, token, children⟩, last, last' => by
    have htoken : (token.map Token.bare).map Token.bare = token.map Token.bare := by
      rw [Option.map_map]
      rfl
    by_cases hrule : rule = .sequence
    · subst hrule
      rw [bare, segmentBlocks, segmentBlocks]
      simp only [bare]
      rw [htoken, bareAll_segments (bareAll_segmentBlocksAll children _ _) last last']
    · rw [bare, segmentBlocks, segmentBlocks]
      · simp only [bare]
        rw [htoken, bareAll_segmentBlocksAll children last last']
      · exact hrule
      · exact hrule

theorem bareAll_segmentBlocksAll : ∀ (ns : List Node) (last last' : Nat),
    bareAll (segmentBlocksAll last (bareAll ns)).1 = bareAll (segmentBlocksAll last' ns).1
  | [], _, _ => rfl
  | n :: rest, last, last' => by
    rw [bareAll, segmentBlocksAll, segmentBlocksAll]
    simp only [bareAll]
    rw [bare_segmentBlocks n last last', bareAll_segmentBlocksAll rest]

end

end Node

/-- **Normalisation sees neither spans nor numbers**: trees that differ in these only have normal
forms that differ in these only. -/
theorem bare_normalize {tree tree' : Node × Nat} (h : tree.1.bare = tree'.1.bare) :
    (normalize tree).1.bare = (normalize tree').1.bare := by
  have hcleaned : ∀ n : Node, n.cleaned.bare = n.bare.cleaned := by
    intro n
    rw [Node.cleaned, Node.cleaned, Node.flattenSequences_bare, Node.flattenValues_bare,
      Node.removeNoise_bare]
  rw [normalize_eq, normalize_eq, ← Node.bare_segmentBlocks _ 0 tree.2,
    ← Node.bare_segmentBlocks _ 0 tree'.2, hcleaned, hcleaned, h]

/-! ### Names -/

namespace Node

mutual

theorem preorder_bare : ∀ n : Node, n.bare.preorder = n.preorder.map bare
  | ⟨id, rule, token, children⟩ => by
    rw [bare, preorder_mk, preorder_mk, List.map_cons, bare, flatMap_preorder_bareAll children]

theorem flatMap_preorder_bareAll : ∀ ns : List Node,
    (bareAll ns).flatMap preorder = (ns.flatMap preorder).map bare
  | [] => rfl
  | n :: rest => by
    rw [bareAll, List.flatMap_cons, List.flatMap_cons, List.map_append, preorder_bare n,
      flatMap_preorder_bareAll rest]

end

@[simp] theorem ident?_bare (n : Node) : n.bare.ident? = n.ident? := by
  rw [ident?, ident?, rule_bare, token_bare]
  obtain _ | ⟨lexeme, span⟩ := n.token
  · rfl
  · cases lexeme <;> rfl

/-- The same names occur in a tree and in the bare tree. -/
theorem names_bare (n : Node) : n.bare.names = n.names := by
  have hidents : (n.preorder.map bare).filterMap ident? = n.preorder.filterMap ident? := by
    rw [List.filterMap_map]
    exact congrArg (n.preorder.filterMap ·) (funext ident?_bare)
  rw [names, names, preorder_bare, hidents]

end Node

/-! ### Derivations -/

mutual

/-- The tree of an outline, without spans and numbers. -/
def Outline.bare : Outline → Node
  | ⟨rule, token, children⟩ => ⟨0, rule, token.map Token.bare, Outline.bareAll children⟩

/-- The trees of outlines, without spans and numbers. -/
def Outline.bareAll : List Outline → List Node
  | [] => []
  | o :: rest => o.bare :: Outline.bareAll rest

end

mutual

/-- Wherever numbering starts, it gives the same tree up to numbers. -/
theorem Outline.bare_number : ∀ (o : Outline) (last : Nat), (o.number last).1.bare = o.bare
  | ⟨rule, token, children⟩, last => by
    rw [Outline.number, Node.bare, Outline.bare, Outline.bareAll_numberAll children]

theorem Outline.bareAll_numberAll : ∀ (os : List Outline) (last : Nat),
    Node.bareAll (Outline.numberAll last os).1 = Outline.bareAll os
  | [], _ => rfl
  | o :: rest, last => by
    rw [Outline.numberAll, Outline.bareAll]
    simp only [Node.bareAll]
    rw [Outline.bare_number o, Outline.bareAll_numberAll rest]

end

theorem Expression.outline_bare (e : Expression) : e.bare.outline.bare = e.outline.bare := by
  obtain ⟨left, _ | ⟨op, right⟩⟩ := e <;> rfl

namespace Statement

mutual

theorem outline_bare : ∀ s : Statement, s.bare.outline.bare = s.outline.bare
  | ret word value delimiter => by
    simp only [bare, outline, Outline.bare, Outline.bareAll, value.outline_bare]
    rfl
  | assign target sign value delimiter => by
    simp only [bare, outline, Outline.bare, Outline.bareAll, value.outline_bare]
    rfl
  | cond word test opening thenBody closing elseWord elseOpening elseBody elseClosing => by
    simp only [bare, outline, Outline.bare, Outline.bareAll, test.outline_bare,
      sequenceOutline_bareAll thenBody, sequenceOutline_bareAll elseBody]
    rfl
  | loop word test opening body closing => by
    simp only [bare, outline, Outline.bare, Outline.bareAll, test.outline_bare,
      sequenceOutline_bareAll body]
    rfl

theorem sequenceOutline_bareAll : ∀ program : List Statement,
    (sequenceOutline (bareAll program)).bare = (sequenceOutline program).bare
  | [] => rfl
  | s :: rest => by
    simp only [bareAll, sequenceOutline, Outline.bare, Outline.bareAll, outline_bare s,
      sequenceOutline_bareAll rest]

end

/-- Programs that are the same up to spans have trees that are the same up to spans and numbers,
wherever their numbering starts. -/
theorem bare_number_sequenceOutline {program program' : List Statement}
    (h : bareAll program = bareAll program') (last last' : Nat) :
    ((sequenceOutline program).number last).1.bare =
      ((sequenceOutline program').number last').1.bare := by
  rw [Outline.bare_number, Outline.bare_number, ← sequenceOutline_bareAll program, h,
    sequenceOutline_bareAll program']

end Statement

end BlockFlow
