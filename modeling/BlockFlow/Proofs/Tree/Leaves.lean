import BlockFlow.Proofs.Recognition
import BlockFlow.Tree.Passes

/-!
# Leaves and names

The leaves of a tree are those of its children in a row (`Node.leaves_mk`), and the names of a tree
are the ones that its leaves spell (`Node.mem_names_iff`).  Grouping statements into basic blocks
keeps all leaves where they are (`Node.leaves_segmentBlocks`).
-/

namespace BlockFlow

namespace Node

/-! ### Visiting by recursion -/

theorem map_fst_visits (parent parent' : Option Node) (n : Node) :
    (n.visits (fun _ => true) parent).map Prod.fst =
      (n.visits (fun _ => true) parent').map Prod.fst := by
  obtain ⟨id, rule, token, children⟩ := n
  rw [visits, visits]
  rfl

theorem map_fst_visitsAll (parent : Node) (children : List Node) :
    (visitsAll (fun _ => true) parent children).map Prod.fst = children.flatMap preorder := by
  induction children with
  | nil => rfl
  | cons child rest ih =>
    rw [visitsAll, List.map_append, ih, List.flatMap_cons, map_fst_visits (some parent) none]
    rfl

/-- The nodes of a tree are its root and the nodes of its children. -/
theorem preorder_mk (id : Nat) (rule : Rule) (token : Option Token) (children : List Node) :
    preorder ⟨id, rule, token, children⟩ =
      ⟨id, rule, token, children⟩ :: children.flatMap preorder := by
  rw [preorder, visits, List.map_cons, ← map_fst_visitsAll ⟨id, rule, token, children⟩]
  rfl

/-- The leaves of trees, from left to right. -/
def leavesAll (ns : List Node) : List Token :=
  ns.flatMap leaves

@[simp] theorem leavesAll_nil : leavesAll [] = [] := rfl

@[simp] theorem leavesAll_cons (n : Node) (rest : List Node) :
    leavesAll (n :: rest) = n.leaves ++ leavesAll rest := by
  rw [leavesAll, List.flatMap_cons]
  rfl

@[simp] theorem leavesAll_append (first second : List Node) :
    leavesAll (first ++ second) = leavesAll first ++ leavesAll second :=
  List.flatMap_append

/-- The leaves of a tree are its own token, if its root is a leaf of the source, and the leaves of
its children. -/
theorem leaves_mk (id : Nat) (rule : Rule) (token : Option Token) (children : List Node) :
    leaves ⟨id, rule, token, children⟩ =
      (if rule = .term then token.toList else []) ++ leavesAll children := by
  have hchildren : (children.flatMap preorder).filterMap
      (fun m => if m.rule = .term then m.token else none) = leavesAll children := by
    rw [List.filterMap_flatMap]
    rfl
  rw [leaves, preorder_mk, List.filterMap_cons, hchildren]
  by_cases hrule : rule = .term
  · cases token with
    | none => simp [hrule]
    | some t => simp [hrule]
  · simp [hrule]

theorem leaves_of_ne {n : Node} (h : n.rule ≠ .term) : n.leaves = leavesAll n.children := by
  obtain ⟨id, rule, token, children⟩ := n
  rw [leaves_mk, if_neg h, List.nil_append]

/-! ### Names -/

theorem mem_insertName {x name : String} {names : List String} :
    x ∈ insertName name names ↔ x = name ∨ x ∈ names := by
  induction names with
  | nil => simp [insertName]
  | cons first rest ih =>
    rw [insertName]
    split
    · exact List.mem_cons
    · split
      · rename_i heq
        rw [heq, List.mem_cons, or_self_left]
      · rw [List.mem_cons, ih, List.mem_cons, or_left_comm]

theorem ident?_eq_some_iff {n : Node} {name : String} : n.ident? = some name ↔
    ∃ t, (if n.rule = .term then n.token else none) = some t ∧ t.lexeme = .ident name := by
  unfold ident?
  split
  · cases n.token with
    | none => simp
    | some t =>
      obtain ⟨lexeme, span⟩ := t
      cases lexeme <;> simp
  · simp

/-- **The names of a tree are those that its leaves spell.** -/
theorem mem_names_iff {n : Node} {name : String} :
    name ∈ n.names ↔ ∃ t ∈ n.leaves, t.lexeme = .ident name := by
  have hfold : ∀ spelt : List String, name ∈ spelt.foldr insertName [] ↔ name ∈ spelt := by
    intro spelt
    induction spelt with
    | nil => rfl
    | cons first rest ih => rw [List.foldr_cons, mem_insertName, ih, List.mem_cons]
  rw [names, hfold, List.mem_filterMap, leaves]
  constructor
  · rintro ⟨m, hm, hident⟩
    obtain ⟨t, ht, hname⟩ := ident?_eq_some_iff.mp hident
    exact ⟨t, List.mem_filterMap.mpr ⟨m, hm, ht⟩, hname⟩
  · rintro ⟨t, ht, hname⟩
    obtain ⟨m, hm, ht⟩ := List.mem_filterMap.mp ht
    exact ⟨m, hm, ident?_eq_some_iff.mpr ⟨t, ht, hname⟩⟩

/-! ### Basic blocks -/

/-- The statements of a group. -/
def Segment.statements : Segment → List Node
  | single s => [s]
  | block statements => statements

theorem flatMap_pendingSegment (pending : List Node) :
    (pendingSegment pending).flatMap Segment.statements = pending := by
  unfold pendingSegment
  split
  · rename_i hempty
    rw [List.isEmpty_iff.mp hempty]
    rfl
  · exact List.append_nil pending

/-- Grouping loses no statement and keeps their order. -/
theorem flatMap_segmentsFrom (pending nodes : List Node) :
    (segmentsFrom pending nodes).flatMap Segment.statements = pending ++ nodes := by
  induction nodes generalizing pending with
  | nil => rw [segmentsFrom, flatMap_pendingSegment, List.append_nil]
  | cons s rest ih =>
    rw [segmentsFrom]
    split
    · rw [ih, List.append_assoc, List.singleton_append]
    · rw [List.flatMap_cons, ih, Segment.statements, List.nil_append, List.append_assoc,
        List.singleton_append]
    · rw [List.flatMap_append, flatMap_pendingSegment, List.flatMap_cons, ih, Segment.statements,
        List.nil_append, List.singleton_append]

theorem leavesAll_numberSegments (last : Nat) (segments : List Segment) :
    leavesAll (numberSegments last segments) =
      leavesAll (segments.flatMap Segment.statements) := by
  induction segments generalizing last with
  | nil => rfl
  | cons segment rest ih =>
    cases segment with
    | single s => rw [numberSegments, leavesAll_cons, ih, List.flatMap_cons, leavesAll_append,
        Segment.statements, leavesAll_cons, leavesAll_nil, List.append_nil]
    | block statements =>
      rw [numberSegments, leavesAll_cons, ih, List.flatMap_cons, leavesAll_append, leaves_mk,
        if_neg (by decide), List.nil_append, Segment.statements]

mutual

/-- **Forming basic blocks keeps the leaves.** -/
theorem leaves_segmentBlocks : ∀ (n : Node) (last : Nat),
    (n.segmentBlocks last).1.leaves = n.leaves
  | ⟨id, rule, token, children⟩, last => by
    unfold segmentBlocks
    split
    · rename_i id' token' children' heq
      cases heq
      simp only [leaves_mk]
      rw [leavesAll_numberSegments, flatMap_segmentsFrom, List.nil_append,
        leavesAll_segmentBlocksAll children]
    · rename_i id' rule' token' children' _ heq
      cases heq
      simp only [leaves_mk]
      rw [leavesAll_segmentBlocksAll children]

theorem leavesAll_segmentBlocksAll : ∀ (ns : List Node) (last : Nat),
    leavesAll (segmentBlocksAll last ns).1 = leavesAll ns
  | [], last => rfl
  | n :: rest, last => by
    rw [segmentBlocksAll]
    simp only [leavesAll_cons]
    rw [leaves_segmentBlocks n, leavesAll_segmentBlocksAll rest]

end

end Node

end BlockFlow
