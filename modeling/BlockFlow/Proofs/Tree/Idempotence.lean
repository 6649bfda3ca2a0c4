import BlockFlow.Proofs.Tree.Commutation

/-!
# Normalising twice

A pass is *settled* on a tree if it leaves the tree as it is and draws no number, whatever the last
number used is (`Pass.Settled`).  Every pass is settled on what it has made of the tree of a program
(`Pass.settled_apply`), and so is a pass that cleans statements on what any pass makes of that later
(`Pass.Settled.apply`).  So all four passes are settled on a normal tree.  Dropping noise and
forming basic blocks are settled on what they make of any tree at all.
-/

namespace BlockFlow

namespace Node

/-! ### Dropping noise from any tree -/

theorem kind?_leaf (n : Node) : n.leaf.kind? = n.kind? := rfl

theorem kind?_removeNoise (n : Node) : n.removeNoise.kind? = n.kind? := by
  rw [removeNoise_eq]
  rfl

/-- **Nothing is noise that was not.** -/
theorem removeNoise_removeNoise (n : Node) : n.removeNoise.removeNoise = n.removeNoise := by
  have hboth : (∀ n : Node, n.removeNoise.removeNoise = n.removeNoise) ∧
      ∀ ns, removeNoiseAll (removeNoiseAll ns) = removeNoiseAll ns := by
    refine removeNoise.mutual_induct _ _ ?node ?nil ?noise ?leaf ?other
    case node =>
      intro id rule token children ih
      simp only [removeNoise, ih]
    case nil => rfl
    case noise =>
      intro child rest kind hkind hnoise ih
      simp only [removeNoiseAll, hkind, hnoise, if_true, ih]
    case leaf =>
      intro child rest kind hkind hnoise ih
      simp only [removeNoiseAll, hkind, if_neg hnoise, kind?_leaf, ih]
      rfl
    case other =>
      intro child rest hkind ihChild ihRest
      simp only [removeNoiseAll, hkind, kind?_removeNoise, ihChild, ihRest]
  exact hboth.1 n

/-! ### Forming basic blocks in any tree -/

/-- Assignments and returns do not stand alone. -/
theorem rule_ne_of_single_mem {pending nodes : List Node} {s : Node}
    (h : Segment.single s ∈ segmentsFrom pending nodes) : s.rule ≠ .assign ∧ s.rule ≠ .ret := by
  have hpending : ∀ pending, Segment.single s ∉ pendingSegment pending := by
    intro pending
    unfold pendingSegment
    split <;> simp
  fun_induction segmentsFrom pending nodes with
  | case1 pending => exact absurd h (hpending pending)
  | case2 pending s' rest hrule ih => exact ih h
  | case3 pending s' rest hrule ih => exact ih (List.mem_of_ne_of_mem (by simp) h)
  | case4 pending s' rest hassign hret ih =>
    rcases List.mem_cons.mp ((List.mem_append.mp h).resolve_left (hpending pending)) with h | h
    · cases h
      exact ⟨hassign, hret⟩
    · exact ih h

/-- **Blocks are formed once.** -/
theorem segmentBlocks_segmentBlocks (n : Node) (last last' : Nat) :
    (n.segmentBlocks last).1.segmentBlocks last' = ((n.segmentBlocks last).1, last') := by
  induction n using induct generalizing last last' with | node n ih
  -- Whatever is left of the trees below the root stays as it is.
  have hentered : ∀ c, (∃ s ∈ n.children, ∃ last, c = (s.segmentBlocks last).1) →
      ∀ last', c.segmentBlocks last' = (c, last') := by
    rintro c ⟨s, hs, last, rfl⟩
    exact ih s hs last
  by_cases hrule : n.rule = .sequence
  · apply segmentBlocks_eq_self
    · intro _ c hc
      obtain ⟨last'', hchildren⟩ := children_segmentBlocks hrule last
      rw [hchildren] at hc
      rcases mem_numberSegments hc with hc | ⟨id, statements, rfl, -⟩
      · exact rule_ne_of_single_mem hc
      · simp
    · intro c hc
      rcases mem_children_segmentBlocks hrule hc with hc | ⟨id, statements, rfl, hstatements⟩
      · exact hentered c hc
      · exact segmentBlocks_eq_self (fun hblock => by cases hblock)
          fun s hs => hentered s (hstatements s hs)
  · apply segmentBlocks_eq_self
    · intro hsequence
      exact absurd ((rule_segmentBlocks last n).symm.trans hsequence) hrule
    · intro c hc
      rw [children_segmentBlocks_of_ne hrule] at hc
      exact hentered c (mem_segmentBlocksAll hc)

end Node

/-! ### Settled passes -/

namespace Pass

variable {nested : Bool} {tree : Node × Nat} {pass : Pass}

/-- The pass leaves the tree as it is and draws no number, whatever the last number used. -/
def Settled (pass : Pass) (n : Node) : Prop :=
  ∀ last, pass.apply (n, last) = (n, last)

theorem settled_removeNoise (tree : Node × Nat) :
    removeNoise.Settled (removeNoise.apply tree).1 := fun last =>
  congrArg (·, last) tree.1.removeNoise_removeNoise

theorem settled_segmentBlocks (tree : Node × Nat) :
    segmentBlocks.Settled (segmentBlocks.apply tree).1 :=
  tree.1.segmentBlocks_segmentBlocks tree.2

/-- Without pairs there is nothing to flatten. -/
theorem settled_flattenSequences (htree : tree.1.IsProgram false) :
    flattenSequences.Settled tree.1 := fun last =>
  congrArg (·, last) htree.grammatical.flattenSequences_eq

/-- Cleaning draws no numbers, so one last number used is as good as another. -/
theorem settled_of_apply_eq (hpass : pass.isCleaning = true) (h : pass.apply tree = tree) :
    pass.Settled tree.1 := by
  intro last
  have hsame := congrArg Prod.fst h
  rcases eq_or_eq_of_isCleaning hpass with rfl | rfl
  · exact congrArg (·, last) hsame
  · exact congrArg (·, last) hsame

/-- An operand that has come in place of its expression is no expression. -/
theorem settled_flattenValues (htree : tree.1.IsProgram nested) :
    flattenValues.Settled (flattenValues.apply tree).1 := by
  apply settled_of_apply_eq rfl
  rw [rewritesParts_flattenValues.apply_eq (isProgram_apply flattenValues htree),
    rewritesParts_flattenValues.apply_eq htree]
  simp only
  rw [Node.rewriteParts_rewriteParts htree.grammatical htree.not_isPart Node.keepsParts_withoutTail,
    Node.rewriteParts_congr htree.grammatical htree.not_isPart fun c hc =>
      hc.withoutTail_withoutTail]

/-- **Every pass is settled on what it has made of the tree of a program.** -/
theorem settled_apply (pass : Pass) (htree : tree.1.IsProgram nested) :
    pass.Settled (pass.apply tree).1 := by
  cases pass with
  | flattenSequences => exact settled_flattenSequences (isProgram_flattenSequences htree)
  | flattenValues => exact settled_flattenValues htree
  | removeNoise => exact settled_removeNoise tree
  | segmentBlocks => exact settled_segmentBlocks tree

/-- **A pass that cleans statements stays settled.** -/
theorem Settled.apply (hpass : pass.isCleaning = true) (hsettled : pass.Settled tree.1)
    (htree : tree.1.IsProgram nested) (pass' : Pass) : pass.Settled (pass'.apply tree).1 := by
  apply settled_of_apply_eq hpass
  rw [apply_comm hpass pass' htree, hsettled tree.2]

theorem applyAll_eq_self {passes : List Pass} {n : Node} (h : ∀ pass ∈ passes, pass.Settled n)
    (last : Nat) : applyAll passes (n, last) = (n, last) := by
  induction passes with
  | nil => rfl
  | cons pass rest ih =>
    obtain ⟨hpass, hrest⟩ := List.forall_mem_cons.mp h
    rw [applyAll_cons, hpass last, ih hrest]

/-- All passes are settled on a normal tree. -/
theorem settled_normalize (pass : Pass) (htree : tree.1.IsProgram nested) :
    pass.Settled (normalize tree).1 := by
  have hflat := isProgram_flattenSequences htree
  have hvalues := isProgram_apply flattenValues hflat
  have hnoise := isProgram_apply removeNoise hvalues
  cases pass with
  | flattenSequences => exact settled_flattenSequences (isProgram_apply segmentBlocks hnoise)
  | flattenValues =>
    exact ((settled_flattenValues hflat).apply rfl hvalues removeNoise).apply rfl hnoise
      segmentBlocks
  | removeNoise => exact (settled_removeNoise _).apply rfl hnoise segmentBlocks
  | segmentBlocks => exact settled_segmentBlocks _

end Pass

/-- **Normalisation is idempotent, pass by pass.**  On what is made of a derivation by the passes up
to one of them, this pass is settled, and normalising a normal tree changes nothing and draws no
number.  Dropping noise and forming basic blocks are settled on what they make of any tree. -/
theorem settled_passes :
    (∀ last tokens tree, parseTree last tokens = .ok tree →
      (∀ (k : Nat) (pass : Pass), Pass.pipeline[k]? = some pass →
        pass.Settled (Pass.applyAll (Pass.pipeline.take (k + 1)) tree).1) ∧
      ∀ last', normalize ((normalize tree).1, last') = ((normalize tree).1, last')) ∧
    ∀ tree, Pass.removeNoise.Settled (Pass.removeNoise.apply tree).1 ∧
      Pass.segmentBlocks.Settled (Pass.segmentBlocks.apply tree).1 := by
  refine ⟨fun last tokens tree hparse => ?_, fun tree =>
    ⟨Pass.settled_removeNoise tree, Pass.settled_segmentBlocks tree⟩⟩
  have htree := isProgram_of_parseTree hparse
  constructor
  · intro k pass hpass
    rw [List.take_add_one, hpass, Pass.applyAll, List.foldl_append]
    exact Pass.settled_apply pass (Pass.isProgram_applyAll _ htree)
  · exact Pass.applyAll_eq_self fun pass _ => Pass.settled_normalize pass htree

/-- The normal tree of a program with a conditional stays as it is. -/
theorem settled_absoluteTokens : ∃ tree, parseTree 0 absoluteTokens = .ok tree ∧
    Pass.flattenValues.Settled (Pass.applyAll [.flattenSequences, .flattenValues] tree).1 ∧
    normalize ((normalize tree).1, 90) = ((normalize tree).1, 90) := by
  have hparse : ∃ tree, parseTree 0 absoluteTokens = .ok tree := ⟨_, rfl⟩
  obtain ⟨tree, hparse⟩ := hparse
  obtain ⟨hpasses, hnormal⟩ := settled_passes.1 0 absoluteTokens tree hparse
  exact ⟨tree, hparse, hpasses 1 .flattenValues rfl, hnormal 90⟩

end BlockFlow
