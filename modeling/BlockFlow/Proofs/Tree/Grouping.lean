import BlockFlow.Proofs.Tree.Cleaning
import Mathlib.Data.List.Chain

/-!
# Grouping statements into basic blocks

`Statement.Grouping` says how the statements of a sequence are grouped: conditionals and loops stand
alone, and the others form blocks, which are runs of assignments that a return may close and which
are as long as they can be.  These rules leave no choice (`Grouping.unique`), and so there is one
tree for a sequence of statements, apart from the numbers of its nodes
(`outline_eq_of_isSequenceTree`).

The last pass of normalisation groups by these rules, in the tree of every sequence
(`IsSequenceTree.segmentBlocks`).
-/

namespace BlockFlow

namespace Statement

/-! ### Runs and groups -/

/-- Whether the statement is an assignment. -/
def isAssign : Statement → Bool
  | assign .. => true
  | _ => false

/-- Whether the statement is a return. -/
def isReturn : Statement → Bool
  | ret .. => true
  | _ => false

/-- Whether the statement is a conditional or a loop. -/
def isBranch : Statement → Bool
  | cond .. | loop .. => true
  | _ => false

/-- What a block may hold: assignments, the last of which may be a return instead. -/
def IsRun (run : List Statement) : Prop :=
  ∃ first last, run = first ++ [last] ∧ (∀ s ∈ first, s.isAssign) ∧ (last.isAssign ∨ last.isReturn)

namespace Group

/-- Whether the group is a block. -/
def isBlock : Group → Bool
  | block _ => true
  | alone _ => false

/-- The statements may form this group. -/
def Fits : Group → Prop
  | alone s => s.isBranch
  | block run => IsRun run

/-- The last statement of the group is a return. -/
def EndsInReturn (group : Group) : Prop :=
  ∃ s ∈ group.statements.getLast?, s.isReturn

end Group

/-- The groups that the statements of a sequence form. -/
structure Grouping (program : List Statement) (groups : List Group) : Prop where
  /-- Every statement is in one group, and their order is kept. -/
  statements_eq : groups.flatMap Group.statements = program
  /-- Conditionals and loops stand alone, and blocks are runs of the other statements. -/
  fits : ∀ group ∈ groups, group.Fits
  /-- Blocks are as long as they can be: a block follows another only behind a return. -/
  maximal : groups.IsChain fun group next => group.isBlock → next.isBlock → group.EndsInReturn

namespace Grouping

variable {s : Statement} {run program : List Statement} {groups : List Group}

theorem nil : Grouping [] [] :=
  ⟨rfl, nofun, .nil⟩

theorem alone (hs : s.isBranch) (h : Grouping program groups) :
    Grouping (s :: program) (.alone s :: groups) where
  statements_eq := by
    rw [List.flatMap_cons, h.statements_eq]
    rfl
  fits := List.forall_mem_cons.mpr ⟨hs, h.fits⟩
  maximal := List.isChain_cons.mpr ⟨fun _ _ => nofun, h.maximal⟩

theorem block (hrun : IsRun run) (h : Grouping program groups)
    (hnext : Group.EndsInReturn (.block run) ∨ ∀ next ∈ groups.head?, ¬ next.isBlock) :
    Grouping (run ++ program) (.block run :: groups) where
  statements_eq := by
    rw [List.flatMap_cons, h.statements_eq]
    rfl
  fits := List.forall_mem_cons.mpr ⟨hrun, h.fits⟩
  maximal := by
    refine List.isChain_cons.mpr ⟨fun next hmem _ hblock => ?_, h.maximal⟩
    rcases hnext with hreturn | hnext
    · exact hreturn
    · exact absurd hblock (hnext next hmem)

/-- Behind the first group the others are grouped by the same rules. -/
theorem tail {group : Group} (h : Grouping program (group :: groups)) :
    ∃ rest, program = group.statements ++ rest ∧ Grouping rest groups := by
  have hstatements := h.statements_eq
  rw [List.flatMap_cons] at hstatements
  exact ⟨_, hstatements.symm, rfl, (List.forall_mem_cons.mp h.fits).2, h.maximal.tail⟩

end Grouping

/-! ### There is one way to group -/

theorem not_isReturn_of_isAssign {s : Statement} (h : s.isAssign) : ¬ s.isReturn := by
  cases s <;> simp_all [isAssign, isReturn]

theorem not_isReturn_of_isBranch {s : Statement} (h : s.isBranch) : ¬ s.isReturn := by
  cases s <;> simp_all [isBranch, isReturn]

theorem not_isBranch_of_isAssign {s : Statement} (h : s.isAssign) : ¬ s.isBranch := by
  cases s <;> simp_all [isAssign, isBranch]

theorem IsRun.ne_nil {run : List Statement} (h : IsRun run) : run ≠ [] := by
  obtain ⟨first, last, rfl, -, -⟩ := h
  simp

theorem IsRun.not_isBranch {run : List Statement} (h : IsRun run) : ∀ s ∈ run, ¬ s.isBranch := by
  obtain ⟨first, last, rfl, hfirst, hlast⟩ := h
  intro s hs hbranch
  rcases List.mem_append.mp hs with hs | hs
  · exact not_isBranch_of_isAssign (hfirst s hs) hbranch
  · rw [List.mem_singleton.mp hs] at hbranch
    cases last <;> cases hbranch <;> simp [isAssign, isReturn] at hlast

theorem Group.Fits.ne_nil {group : Group} (h : group.Fits) : group.statements ≠ [] := by
  cases group with
  | alone s => exact List.cons_ne_nil s []
  | block run => exact IsRun.ne_nil h

/-- A run that goes on behind a block is that block. -/
theorem Grouping.eq_nil_of_isRun {run more rest : List Statement} {groups : List Group}
    (h : Grouping (run ++ (more ++ rest)) (.block run :: groups)) (hrun : IsRun (run ++ more)) :
    more = [] := by
  by_contra hmore
  obtain ⟨rest', hstatements, hothers⟩ := h.tail
  obtain rfl : more ++ rest = rest' := List.append_cancel_left hstatements
  obtain ⟨x, more, rfl⟩ := List.exists_cons_of_ne_nil hmore
  -- The next group begins with a statement of the run, so it is a block as well.
  cases groups with
  | nil => exact absurd hothers.statements_eq (by simp)
  | cons next groups =>
    have hnext : next.isBlock := by
      cases next with
      | block => rfl
      | alone s =>
        have hx : s = x := (List.cons.inj hothers.statements_eq).1
        have hbranch : s.isBranch := hothers.fits _ List.mem_cons_self
        rw [hx] at hbranch
        exact absurd hbranch (hrun.not_isBranch x (by simp))
    -- But what stands in front of another statement of a run is an assignment.
    obtain ⟨s, hs, hreturn⟩ := (List.isChain_cons.mp h.maximal).1 next rfl rfl hnext
    obtain ⟨first, last, hsplit, hfirst, -⟩ := hrun
    have hmem : s ∈ first := by
      have hinit : first = run ++ (x :: more).dropLast := by
        have hdrop := congrArg List.dropLast hsplit
        rw [List.dropLast_concat, List.dropLast_append_of_ne_nil (by simp)] at hdrop
        exact hdrop.symm
      rw [hinit]
      exact List.mem_append_left _ (List.mem_of_getLast? hs)
    exact not_isReturn_of_isAssign (hfirst s hmem) hreturn

/-- **The statements of a sequence can be grouped in one way only.** -/
theorem Grouping.unique {program : List Statement} {groups groups' : List Group}
    (h : Grouping program groups) (h' : Grouping program groups') : groups = groups' := by
  induction groups generalizing program groups' with
  | nil =>
    obtain rfl := h.statements_eq
    cases groups' with
    | nil => rfl
    | cons group' rest' =>
      have hnil := List.append_eq_nil_iff.mp h'.statements_eq
      exact absurd hnil.1 (h'.fits group' List.mem_cons_self).ne_nil
  | cons group rest ih =>
    cases groups' with
    | nil =>
      obtain rfl := h'.statements_eq
      have hnil := List.append_eq_nil_iff.mp h.statements_eq
      exact absurd hnil.1 (h.fits group List.mem_cons_self).ne_nil
    | cons group' rest' =>
      have hfits := h.fits group List.mem_cons_self
      have hfits' := h'.fits group' List.mem_cons_self
      obtain ⟨others, rfl, hothers⟩ := h.tail
      obtain ⟨others', hsplit, hothers'⟩ := h'.tail
      cases group with
      | alone s =>
        cases group' with
        | alone s' =>
          obtain ⟨rfl, rfl⟩ := List.cons.inj hsplit
          rw [ih hothers hothers']
        | block run' =>
          obtain ⟨x, run', rfl⟩ := List.exists_cons_of_ne_nil hfits'.ne_nil
          obtain ⟨rfl, -⟩ := List.cons.inj hsplit
          exact absurd hfits (IsRun.not_isBranch hfits' s List.mem_cons_self)
      | block run =>
        cases group' with
        | alone s' =>
          obtain ⟨x, run, rfl⟩ := List.exists_cons_of_ne_nil hfits.ne_nil
          obtain ⟨rfl, -⟩ := List.cons.inj hsplit
          exact absurd hfits' (IsRun.not_isBranch hfits x List.mem_cons_self)
        | block run' =>
          have hsplit : run ++ others = run' ++ others' := hsplit
          have h' : Grouping (run' ++ others') (.block run' :: rest') := by
            rw [← hsplit]
            exact h'
          -- If one of the two runs goes on where the other ends, it goes on with nothing.
          have hsame : run = run' ∧ others = others' := by
            rcases List.append_eq_append_iff.mp hsplit with ⟨more, rfl, rfl⟩ | ⟨more, rfl, rfl⟩
            · obtain rfl := h.eq_nil_of_isRun hfits'
              exact ⟨(List.append_nil run).symm, rfl⟩
            · obtain rfl := h'.eq_nil_of_isRun hfits
              exact ⟨List.append_nil run', rfl⟩
          obtain ⟨rfl, rfl⟩ := hsame
          rw [ih hothers hothers']

end Statement

/-! ### There is one tree -/

mutual

/-- The tree without its numbers. -/
def Node.outline : Node → Outline
  | ⟨_, rule, token, children⟩ => ⟨rule, token, Node.outlineAll children⟩

/-- The trees without their numbers. -/
def Node.outlineAll : List Node → List Outline
  | [] => []
  | n :: rest => n.outline :: Node.outlineAll rest

end

theorem Expression.IsTree.outline_eq {e : Expression} {n n' : Node} (h : e.IsTree n)
    (h' : e.IsTree n') : n.outline = n'.outline := by
  cases h <;> cases h' <;> rfl

namespace Statement

mutual

/-- Trees of one statement differ in their numbers only. -/
theorem outline_eq_of_isTree : ∀ {s : Statement} {n n' : Node}, IsTree Grouping s n →
    IsTree Grouping s n' → n.outline = n'.outline
  | _, _, _, .ret _ _ _ tree, .ret _ _ _ tree' => by
    simp only [Node.outline, Node.outlineAll, tree.outline_eq tree']
  | _, _, _, .assign _ _ _ _ _ tree, .assign _ _ _ _ _ tree' => by
    simp only [Node.outline, Node.outlineAll, tree.outline_eq tree']
  | _, _, _, .cond _ _ _ _ _ _ _ tree first second, .cond _ _ _ _ _ _ _ tree' first' second' => by
    simp only [Node.outline, Node.outlineAll, tree.outline_eq tree',
      outline_eq_of_isSequenceTree first first', outline_eq_of_isSequenceTree second second']
  | _, _, _, .loop _ _ _ _ tree body, .loop _ _ _ _ tree' body' => by
    simp only [Node.outline, Node.outlineAll, tree.outline_eq tree',
      outline_eq_of_isSequenceTree body body']

theorem outlineAll_eq_of_areTrees : ∀ {program : List Statement} {nodes nodes' : List Node},
    AreTrees Grouping program nodes → AreTrees Grouping program nodes' →
      Node.outlineAll nodes = Node.outlineAll nodes'
  | _, _, _, .nil, .nil => rfl
  | _, _, _, .cons tree trees, .cons tree' trees' => by
    simp only [Node.outlineAll, outline_eq_of_isTree tree tree',
      outlineAll_eq_of_areTrees trees trees']

theorem outlineAll_eq_of_areGroupTrees : ∀ {groups : List Group} {nodes nodes' : List Node},
    AreGroupTrees Grouping groups nodes → AreGroupTrees Grouping groups nodes' →
      Node.outlineAll nodes = Node.outlineAll nodes'
  | _, _, _, .nil, .nil => rfl
  | _, _, _, .alone tree trees, .alone tree' trees' => by
    simp only [Node.outlineAll, outline_eq_of_isTree tree tree',
      outlineAll_eq_of_areGroupTrees trees trees']
  | _, _, _, .block _ inside trees, .block _ inside' trees' => by
    simp only [Node.outlineAll, Node.outline, outlineAll_eq_of_areTrees inside inside',
      outlineAll_eq_of_areGroupTrees trees trees']

/-- **Normal trees of one sequence differ in their numbers only.** -/
theorem outline_eq_of_isSequenceTree : ∀ {program : List Statement} {n n' : Node},
    IsSequenceTree Grouping program n → IsSequenceTree Grouping program n' →
      n.outline = n'.outline
  | _, _, _, .mk _ arranged trees, .mk _ arranged' trees' => by
    obtain rfl := arranged.unique arranged'
    simp only [Node.outline, outlineAll_eq_of_areGroupTrees trees trees']

end

end Statement

/-! ### Forming blocks -/

/-- Grouping leaves the tree of an expression alone. -/
theorem Expression.IsTree.segmentBlocks {e : Expression} {n : Node} (h : e.IsTree n) (last : Nat) :
    e.IsTree (n.segmentBlocks last).1 := by
  cases h with
  | operand id left => exact .operand id left
  | binary id idLeft idTail idOperator idRight left operator right =>
    exact .binary id idLeft idTail idOperator idRight left operator right

namespace Statement

variable {Arranged : List Statement → List Group → Prop}

theorem AreTrees.length_eq {program : List Statement} {nodes : List Node}
    (h : AreTrees Arranged program nodes) : nodes.length = program.length := by
  induction program generalizing nodes with
  | nil =>
    cases h
    rfl
  | cons s rest ih =>
    cases h with
    | cons tree trees => rw [List.length_cons, List.length_cons, ih trees]

theorem AreTrees.append {first second : List Statement} {nodes others : List Node}
    (h : AreTrees Arranged first nodes) (h' : AreTrees Arranged second others) :
    AreTrees Arranged (first ++ second) (nodes ++ others) := by
  induction first generalizing nodes with
  | nil =>
    cases h
    exact h'
  | cons s rest ih =>
    cases h with
    | cons tree trees => exact .cons tree (ih trees)

/-- The statements that wait become a block in front of groups that begin with no block. -/
theorem exists_grouping_pending {pending program : List Statement} {nodes : List Node}
    {groups : List Group} (segments : List Node.Segment)
    (hpending : ∀ s ∈ pending, s.isAssign) (htrees : AreTrees Arranged pending nodes)
    (hgroups : Grouping program groups) (hnext : ∀ next ∈ groups.head?, ¬ next.isBlock)
    (hsegments : ∀ last, AreGroupTrees Arranged groups (Node.numberSegments last segments)) :
    ∃ groups', Grouping (pending ++ program) groups' ∧ ∀ last, AreGroupTrees Arranged groups'
      (Node.numberSegments last (Node.pendingSegment nodes ++ segments)) := by
  rcases List.eq_nil_or_concat' pending with rfl | ⟨first, s, rfl⟩
  · cases htrees
    exact ⟨groups, hgroups, hsegments⟩
  · have hrun : IsRun (first ++ [s]) :=
      ⟨first, s, rfl, fun s' hs' => hpending s' (List.mem_append_left _ hs'),
        .inl (hpending s (by simp))⟩
    have hne : nodes.isEmpty = false := by
      rw [List.isEmpty_eq_false_iff]
      rintro rfl
      simpa using htrees.length_eq
    refine ⟨.block (first ++ [s]) :: groups, hgroups.block hrun (.inr hnext), fun last => ?_⟩
    rw [Node.pendingSegment, hne]
    exact .block _ htrees (hsegments _)

/-- **The trees of statements are grouped by the rules.** -/
theorem exists_grouping_segmentsFrom {program : List Statement} {nodes : List Node}
    (h : AreTrees Arranged program nodes) : ∀ {pending : List Statement} {waiting : List Node},
      (∀ s ∈ pending, s.isAssign) → AreTrees Arranged pending waiting →
      ∃ groups, Grouping (pending ++ program) groups ∧ ∀ last, AreGroupTrees Arranged groups
        (Node.numberSegments last (Node.segmentsFrom waiting nodes)) := by
  induction program generalizing nodes with
  | nil =>
    intro pending waiting hpending hwaiting
    cases h
    obtain ⟨groups, hgroups, htrees⟩ := exists_grouping_pending [] hpending hwaiting .nil (by simp)
      fun _ => .nil
    rw [List.append_nil] at htrees
    exact ⟨groups, hgroups, htrees⟩
  | cons s rest ih =>
    intro pending waiting hpending hwaiting
    cases h with
    | @cons _ _ n others tree trees =>
      obtain ⟨groups, hgroups, htrees⟩ := ih trees (fun s hs => by cases hs) .nil
      have hwaiting' := hwaiting.append (.cons tree .nil)
      -- An assignment waits with the others.
      have hassign : s.isAssign → ∃ groups', Grouping (pending ++ s :: rest) groups' ∧
          ∀ last, AreGroupTrees Arranged groups' (Node.numberSegments last
            (Node.segmentsFrom (waiting ++ [n]) others)) := by
        intro hs
        rw [List.append_cons]
        refine ih trees (fun s' hs' => ?_) hwaiting'
        rcases List.mem_append.mp hs' with hs' | hs'
        · exact hpending s' hs'
        · rwa [List.mem_singleton.mp hs']
      -- A return joins the statements that wait, and the block ends with it.
      have hreturn : s.isReturn → ∃ groups', Grouping (pending ++ s :: rest) groups' ∧
          ∀ last, AreGroupTrees Arranged groups' (Node.numberSegments last
            (.block (waiting ++ [n]) :: Node.segmentsFrom [] others)) := by
        intro hs
        have hrun : IsRun (pending ++ [s]) := ⟨pending, s, rfl, hpending, .inr hs⟩
        refine ⟨.block (pending ++ [s]) :: groups, ?_, fun last => .block _ hwaiting' (htrees _)⟩
        rw [List.append_cons]
        exact hgroups.block hrun (.inl ⟨s, by simp [Group.statements], hs⟩)
      -- A conditional or a loop closes the block of the statements that wait and stands alone.
      have hbranch : s.isBranch → ∃ groups', Grouping (pending ++ s :: rest) groups' ∧
          ∀ last, AreGroupTrees Arranged groups' (Node.numberSegments last
            (Node.pendingSegment waiting ++ .single n :: Node.segmentsFrom [] others)) :=
        fun hs => exists_grouping_pending _ hpending hwaiting (hgroups.alone hs)
          (by simp [Group.isBlock]) fun last => .alone tree (htrees last)
      cases tree with
      | ret => exact hreturn rfl
      | assign => exact hassign rfl
      | cond => exact hbranch rfl
      | loop => exact hbranch rfl

/-- If going into the statements of a sequence leaves their trees normal, grouping them makes the
tree of the sequence normal. -/
theorem IsSequenceTree.segmentBlocks {program : List Statement} {n : Node}
    (h : IsSequenceTree Ungrouped program n)
    (hinside : ∀ {nodes}, AreTrees Ungrouped program nodes → ∀ last,
      AreTrees Grouping program (Node.segmentBlocksAll last nodes).1) (last : Nat) :
    IsSequenceTree Grouping program (n.segmentBlocks last).1 := by
  obtain ⟨id, rfl, trees⟩ := h
  obtain ⟨groups, hgroups, htrees⟩ := exists_grouping_segmentsFrom
    (hinside (areTrees_of_alone trees) _) (fun s hs => by cases hs) .nil
  exact .mk id hgroups (htrees last)

mutual

/-- The tree of a statement becomes normal. -/
theorem isTree_segmentBlocks : ∀ {s : Statement} {n : Node}, IsTree Ungrouped s n → ∀ last,
    IsTree Grouping s (n.segmentBlocks last).1
  | .ret word _ delimiter, _, .ret id _ _ tree, _ => .ret id word delimiter (tree.segmentBlocks _)
  | .assign target sign _ delimiter, _, .assign id idTarget _ _ _ tree, _ =>
    .assign id idTarget target sign delimiter (tree.segmentBlocks _)
  | .cond word _ opening _ closing elseWord elseOpening _ elseClosing, _,
      .cond id _ _ _ _ _ _ tree thenTree elseTree, _ =>
    .cond id word opening closing elseWord elseOpening elseClosing (tree.segmentBlocks _)
      (thenTree.segmentBlocks (fun trees => areTrees_segmentBlocksAll trees) _)
      (elseTree.segmentBlocks (fun trees => areTrees_segmentBlocksAll trees) _)
  | .loop word _ opening _ closing, _, .loop id _ _ _ tree bodyTree, _ =>
    .loop id word opening closing (tree.segmentBlocks _)
      (bodyTree.segmentBlocks (fun trees => areTrees_segmentBlocksAll trees) _)

/-- **Forming blocks makes the trees of statements normal.** -/
theorem areTrees_segmentBlocksAll : ∀ {program : List Statement} {nodes : List Node},
    AreTrees Ungrouped program nodes → ∀ last,
      AreTrees Grouping program (Node.segmentBlocksAll last nodes).1
  | [], _, .nil, _ => .nil
  | _ :: _, _, .cons tree trees, _ =>
    .cons (isTree_segmentBlocks tree _) (areTrees_segmentBlocksAll trees _)

end

end Statement

end BlockFlow
