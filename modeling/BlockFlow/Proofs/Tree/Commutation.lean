import BlockFlow.Proofs.Tree.Normalization
import BlockFlow.Proofs.Tree.Rewriting
import Mathlib.Data.List.Permutation

/-!
# The order of the passes

The passes that rewrite the parts of statements and those that rearrange statements do not get in
each other's way: on the trees of programs they can change places (`Pass.apply_comm`).  Every order
of the four passes therefore comes down to an order of the two that rearrange statements
(`Pass.applyAll_eq_rearranging`), and these two do get in each other's way, since there is nothing
to group before sequences are flat.  `applyAll_eq_normalize_iff` says that this is all that matters.
-/

namespace BlockFlow

open Node (KeepsParts)

namespace Node

variable {nested : Bool} {h : Node → List Node} {n : Node}

/-! ### Rewriting and flattening -/

/-- **Flattening sequences and rewriting parts can change places.** -/
theorem flattenSequences_rewriteParts (hn : n.Grammatical nested) (hrule : n.rule.isPart = false)
    (hh : KeepsParts h) :
    (n.rewriteParts h).flattenSequences = n.flattenSequences.rewriteParts h := by
  refine hn.induct ?pair ?node hrule
  case pair =>
    intro s rest id id' token token' hs hrest ihFirst ihRest
    have hfirst : s.flattenSequences.rule.isPart = false := by
      rw [rule_flattenSequences]
      exact not_isPart_of_isStatement hs
    rw [rewriteParts_pair hs hrest, flattenSequences, flattenSequences, ihFirst, ihRest,
      rewriteParts_eq h ⟨id, _, token, _⟩, List.flatMap_cons, rewritten_of_not_isPart hfirst,
      children_rewriteParts]
    rfl
  case node =>
    intro n _ hflat hbelow
    have hchildren : ∀ c ∈ n.children,
        (c.rewritten h).map flattenSequences = c.flattenSequences.rewritten h := by
      intro c hc
      rcases hbelow c hc with hpart | ⟨hpart, ih⟩
      · rw [hpart.flattenSequences_eq, hpart.rewritten_eq,
          List.map_congr_left fun p hp => (hh c hpart p hp).flattenSequences_eq, List.map_id']
      · rw [rewritten_of_not_isPart hpart, rewritten_of_not_isPart (by simpa using hpart),
          List.map_singleton, ih]
    rw [flattenSequences_of_flat (flat_rewriteParts hflat), flattenSequences_of_flat hflat,
      rewriteParts_eq, rewriteParts_eq]
    simp only [List.map_flatMap, List.flatMap_map]
    rw [List.flatMap_congr hchildren]

/-! ### Rewriting and grouping -/

/-- The group with its statements replaced. -/
def Segment.map (f : Node → Node) : Segment → Segment
  | .single s => .single (f s)
  | .block statements => .block (statements.map f)

theorem pendingSegment_map (f : Node → Node) (pending : List Node) :
    pendingSegment (pending.map f) = (pendingSegment pending).map (.map f) := by
  cases pending <;> rfl

/-- Grouping reads the rules of statements only. -/
theorem segmentsFrom_map {f : Node → Node} (hf : ∀ s : Node, (f s).rule = s.rule)
    (pending nodes : List Node) :
    segmentsFrom (pending.map f) (nodes.map f) = (segmentsFrom pending nodes).map (.map f) := by
  induction nodes generalizing pending with
  | nil => exact pendingSegment_map f pending
  | cons s rest ih =>
    have hpush : pending.map f ++ [f s] = (pending ++ [s]).map f := by simp
    rw [List.map_cons, segmentsFrom, segmentsFrom, hf]
    split
    · rw [hpush, ih]
    · rw [hpush, List.map_cons, ← ih]
      rfl
    · rw [pendingSegment_map, List.map_append, List.map_cons, ← ih]
      rfl

/-- The nodes of groups are replaced one by one if that is what happens below new blocks. -/
theorem numberSegments_map {f : Node → Node} {segments : List Segment}
    (hf : ∀ statements, .block statements ∈ segments → ∀ id,
      f ⟨id, .basicBlock, none, statements⟩ = ⟨id, .basicBlock, none, statements.map f⟩)
    (last : Nat) :
    numberSegments last (segments.map (.map f)) = (numberSegments last segments).map f := by
  induction segments generalizing last with
  | nil => rfl
  | cons segment rest ih =>
    have hrest := ih fun statements hmem => hf statements (List.mem_cons_of_mem _ hmem)
    cases segment with
    | single s =>
      rw [List.map_cons, Segment.map, numberSegments, numberSegments, List.map_cons, hrest]
    | block statements =>
      rw [List.map_cons, Segment.map, numberSegments, numberSegments, List.map_cons, hrest,
        hf statements List.mem_cons_self]

theorem segmentBlocksAll_append (last : Nat) (first second : List Node) :
    segmentBlocksAll last (first ++ second) =
      ((segmentBlocksAll last first).1 ++
        (segmentBlocksAll (segmentBlocksAll last first).2 second).1,
        (segmentBlocksAll (segmentBlocksAll last first).2 second).2) := by
  induction first generalizing last with
  | nil => rfl
  | cons n rest ih => simp only [List.cons_append, segmentBlocksAll, ih]

/-- If grouping and rewriting can change places below each of some trees, they can among all of
them. -/
theorem segmentBlocksAll_rewritten {ns : List Node} (hh : KeepsParts h)
    (hns : ∀ c ∈ ns, c.IsPart ∨ c.rule.isPart = false ∧ ∀ last,
      (c.rewriteParts h).segmentBlocks last =
        ((c.segmentBlocks last).1.rewriteParts h, (c.segmentBlocks last).2)) (last : Nat) :
    segmentBlocksAll last (ns.flatMap (rewritten h)) =
      ((segmentBlocksAll last ns).1.flatMap (rewritten h), (segmentBlocksAll last ns).2) := by
  induction ns generalizing last with
  | nil => rfl
  | cons c rest ih =>
    obtain ⟨hc, hrest⟩ := List.forall_mem_cons.mp hns
    rw [List.flatMap_cons, segmentBlocksAll_append, ih hrest, segmentBlocksAll]
    simp only [List.flatMap_cons]
    rcases hc with hpart | ⟨hpart, hc⟩
    · rw [hpart.segmentBlocks_eq, hpart.rewritten_eq,
        segmentBlocksAll_eq_self fun p hp => (hh c hpart p hp).segmentBlocks_eq]
    · rw [rewritten_of_not_isPart hpart, rewritten_of_not_isPart (by simpa using hpart)]
      simp only [segmentBlocksAll, hc]

/-- Rewriting below statements changes no groups. -/
theorem segmentsFrom_rewriteParts (h : Node → List Node) (nodes : List Node) :
    segmentsFrom [] (nodes.map (rewriteParts h)) =
      (segmentsFrom [] nodes).map (.map (rewriteParts h)) :=
  segmentsFrom_map (rule_rewriteParts h) [] nodes

/-- The nodes of groups of statements are no parts, and nothing below their blocks is. -/
theorem numberSegments_rewritten {nodes : List Node}
    (hnodes : ∀ s ∈ nodes, s.rule.isPart = false) (last : Nat) :
    (numberSegments last (segmentsFrom [] nodes)).flatMap (rewritten h) =
      numberSegments last ((segmentsFrom [] nodes).map (.map (rewriteParts h))) := by
  rw [numberSegments_map, flatMap_rewritten_of_not_isPart]
  · intro n hn
    rcases mem_numberSegments hn with hn | ⟨id, statements, rfl, -⟩
    · exact hnodes n (mem_of_mem_segmentsFrom hn n (List.mem_singleton.mpr rfl))
    · rfl
  · intro statements hmem id
    rw [rewriteParts_eq, flatMap_rewritten_of_not_isPart]
    exact fun s hs => hnodes s (mem_of_mem_segmentsFrom hmem s hs)

/-- **Forming blocks and rewriting parts can change places.** -/
theorem segmentBlocks_rewriteParts (hn : n.Grammatical nested) (hrule : n.rule.isPart = false)
    (hh : KeepsParts h) : ∀ last, (n.rewriteParts h).segmentBlocks last =
      ((n.segmentBlocks last).1.rewriteParts h, (n.segmentBlocks last).2) := by
  refine hn.induct ?pair ?node hrule
  case pair =>
    intro s rest id id' token token' hs hrest ihFirst ihRest last
    rw [rewriteParts_pair hs hrest, segmentBlocks_pair (by simpa using hrest),
      segmentBlocks_pair hrest, ihFirst]
    simp only [ihRest]
    rw [rewriteParts_pair (by simpa using hs) (by simpa using hrest)]
  case node =>
    intro n _ hflat hbelow last
    have hall := segmentBlocksAll_rewritten hh hbelow
    by_cases hsequence : n.rule = .sequence
    · have hpart : ∀ c ∈ n.children, c.rule.isPart = false := fun c hc =>
        not_isPart_of_isStatement (hflat hsequence c hc)
      have hentered : ∀ last, ∀ c ∈ (segmentBlocksAll last n.children).1,
          c.rule.isPart = false := by
        intro last c hc
        obtain ⟨c', hc', last', rfl⟩ := mem_segmentBlocksAll hc
        simpa using hpart c' hc'
      -- As many blocks are counted, so the statements are gone into from the same number on.
      have hcount : blockCount (segmentsFrom [] (n.children.map (rewriteParts h))) =
          blockCount (segmentsFrom [] n.children) :=
        blockCount_segmentsFrom (by simp [Function.comp_def]) rfl
      rw [segmentBlocks_of_sequence (by simpa using hsequence), segmentBlocks_of_sequence hsequence,
        children_rewriteParts, flatMap_rewritten_of_not_isPart hpart, hcount,
        ← flatMap_rewritten_of_not_isPart hpart, hall]
      simp only
      rw [flatMap_rewritten_of_not_isPart (hentered _), segmentsFrom_rewriteParts, rewriteParts_eq,
        rewriteParts_eq, numberSegments_rewritten (hentered _)]
    · rw [segmentBlocks_of_ne (by simpa using hsequence), segmentBlocks_of_ne hsequence,
        children_rewriteParts, hall, rewriteParts_eq, rewriteParts_eq]

end Node

/-! ### Passes that can change places -/

/-- The tree is built like that of a program, as far as the passes have left it. -/
structure Node.IsProgram (nested : Bool) (n : Node) : Prop where
  rule_eq : n.rule = .sequence
  grammatical : n.Grammatical nested

theorem Node.IsProgram.not_isPart {nested : Bool} {n : Node} (h : n.IsProgram nested) :
    n.rule.isPart = false := by
  rw [h.rule_eq]
  rfl

/-- Derivations are the trees of programs. -/
theorem isProgram_of_parseTree {last : Nat} {tokens : List Token} {tree : Node × Nat}
    (h : parseTree last tokens = .ok tree) : tree.1.IsProgram true := by
  obtain ⟨program, hparse, rfl⟩ := Grammar.parseTree_eq_ok_iff.mp h
  obtain ⟨-, hproper, -⟩ := parse_eq_ok_iff_beforeMark.mp hparse
  exact ⟨(Node.rule_number ..).trans (Node.rule_sequenceOutline program),
    Statement.grammatical_sequenceOutline program hproper last⟩

namespace Pass

variable {nested : Bool} {tree : Node × Nat} {h h' : Node → List Node}

/-- The pass rewrites the parts of statements and does nothing else. -/
structure RewritesParts (pass : Pass) (h : Node → List Node) : Prop where
  keepsParts : KeepsParts h
  apply_eq {nested : Bool} {tree : Node × Nat} (htree : tree.1.IsProgram nested) :
    pass.apply tree = (tree.1.rewriteParts h, tree.2)

theorem rewritesParts_flattenValues : flattenValues.RewritesParts Node.withoutTail where
  keepsParts := Node.keepsParts_withoutTail
  apply_eq {_ tree} htree :=
    congrArg (·, tree.2) (htree.grammatical.flattenValues_eq htree.not_isPart)

theorem rewritesParts_removeNoise : removeNoise.RewritesParts Node.withoutNoise where
  keepsParts := Node.keepsParts_withoutNoise
  apply_eq {_ tree} htree :=
    congrArg (·, tree.2) (htree.grammatical.removeNoise_eq htree.not_isPart)

theorem RewritesParts.isProgram {pass : Pass} (hpass : pass.RewritesParts h)
    (htree : tree.1.IsProgram nested) : (pass.apply tree).1.IsProgram nested := by
  rw [hpass.apply_eq htree]
  exact ⟨(Node.rule_rewriteParts ..).trans htree.rule_eq,
    htree.grammatical.rewriteParts hpass.keepsParts htree.not_isPart⟩

/-- Flattening sequences leaves no pair. -/
theorem isProgram_flattenSequences (htree : tree.1.IsProgram nested) :
    (flattenSequences.apply tree).1.IsProgram false :=
  ⟨(Node.rule_flattenSequences _).trans htree.rule_eq, htree.grammatical.flattenSequences⟩

/-- **Every pass makes the tree of a program one again.** -/
theorem isProgram_apply (pass : Pass) (htree : tree.1.IsProgram nested) :
    (pass.apply tree).1.IsProgram nested := by
  cases pass with
  | flattenSequences =>
    have hflat := isProgram_flattenSequences htree
    exact ⟨hflat.rule_eq, hflat.grammatical.of_false⟩
  | flattenValues => exact rewritesParts_flattenValues.isProgram htree
  | removeNoise => exact rewritesParts_removeNoise.isProgram htree
  | segmentBlocks =>
    exact ⟨(Node.rule_segmentBlocks ..).trans htree.rule_eq, htree.grammatical.segmentBlocks tree.2⟩

/-- Two passes that rewrite parts can change places if it does not matter for the parts. -/
theorem RewritesParts.apply_comm {pass pass' : Pass} (hpass : pass.RewritesParts h)
    (hpass' : pass'.RewritesParts h')
    (hh : ∀ c : Node, c.IsPart → (h' c).flatMap h = (h c).flatMap h')
    (htree : tree.1.IsProgram nested) :
    pass.apply (pass'.apply tree) = pass'.apply (pass.apply tree) := by
  have hprogram := hpass.isProgram htree
  have hprogram' := hpass'.isProgram htree
  rw [hpass.apply_eq hprogram', hpass'.apply_eq hprogram, hpass.apply_eq htree,
    hpass'.apply_eq htree]
  simp only
  rw [Node.rewriteParts_rewriteParts htree.grammatical htree.not_isPart hpass.keepsParts,
    Node.rewriteParts_rewriteParts htree.grammatical htree.not_isPart hpass'.keepsParts,
    Node.rewriteParts_congr htree.grammatical htree.not_isPart hh]

/-- Whether the pass cleans statements and leaves alone how they are arranged. -/
def isCleaning : Pass → Bool
  | flattenValues | removeNoise => true
  | flattenSequences | segmentBlocks => false

theorem eq_or_eq_of_isCleaning {pass : Pass} (hpass : pass.isCleaning = true) :
    pass = flattenValues ∨ pass = removeNoise := by
  cases pass with
  | flattenValues => exact .inl rfl
  | removeNoise => exact .inr rfl
  | flattenSequences => cases hpass
  | segmentBlocks => cases hpass

theorem exists_rewritesParts {pass : Pass} (hpass : pass.isCleaning = true) :
    ∃ h, pass.RewritesParts h := by
  rcases eq_or_eq_of_isCleaning hpass with rfl | rfl
  · exact ⟨_, rewritesParts_flattenValues⟩
  · exact ⟨_, rewritesParts_removeNoise⟩

/-- **A pass that cleans statements can change places with every pass.** -/
theorem apply_comm {pass : Pass} (hpass : pass.isCleaning = true) (pass' : Pass)
    (htree : tree.1.IsProgram nested) :
    pass.apply (pass'.apply tree) = pass'.apply (pass.apply tree) := by
  have hcleaning : removeNoise.apply (flattenValues.apply tree) =
      flattenValues.apply (removeNoise.apply tree) :=
    rewritesParts_removeNoise.apply_comm rewritesParts_flattenValues
      (fun c hc => hc.withoutTail_withoutNoise) htree
  obtain ⟨h, hrewrites⟩ := exists_rewritesParts hpass
  cases pass' with
  | flattenSequences =>
    rw [hrewrites.apply_eq (isProgram_apply flattenSequences htree), hrewrites.apply_eq htree]
    simp only [apply]
    rw [Node.flattenSequences_rewriteParts htree.grammatical htree.not_isPart hrewrites.keepsParts]
  | segmentBlocks =>
    rw [hrewrites.apply_eq (isProgram_apply segmentBlocks htree), hrewrites.apply_eq htree]
    simp only [apply]
    rw [Node.segmentBlocks_rewriteParts htree.grammatical htree.not_isPart hrewrites.keepsParts]
  | flattenValues =>
    rcases eq_or_eq_of_isCleaning hpass with rfl | rfl
    · rfl
    · exact hcleaning
  | removeNoise =>
    rcases eq_or_eq_of_isCleaning hpass with rfl | rfl
    · exact hcleaning.symm
    · rfl

/-! ### Orders of the passes -/

theorem applyAll_cons (pass : Pass) (passes : List Pass) (tree : Node × Nat) :
    applyAll (pass :: passes) tree = applyAll passes (pass.apply tree) := rfl

theorem isProgram_applyAll (passes : List Pass) (htree : tree.1.IsProgram nested) :
    (applyAll passes tree).1.IsProgram nested := by
  induction passes generalizing tree with
  | nil => exact htree
  | cons pass rest ih => exact ih (isProgram_apply pass htree)

/-- A pass that cleans statements can be made the first. -/
theorem applyAll_eq_cons_erase {pass : Pass} (hpass : pass.isCleaning = true) {passes : List Pass}
    (hmem : pass ∈ passes) (htree : tree.1.IsProgram nested) :
    applyAll passes tree = applyAll (pass :: passes.erase pass) tree := by
  induction passes generalizing tree with
  | nil => cases hmem
  | cons pass' rest ih =>
    by_cases heq : pass' = pass
    · rw [heq, List.erase_cons_head]
    · have hmem : pass ∈ rest := (List.mem_cons.mp hmem).resolve_left (Ne.symm heq)
      calc applyAll (pass' :: rest) tree
          = applyAll rest (pass'.apply tree) := applyAll_cons ..
        _ = applyAll (rest.erase pass) (pass.apply (pass'.apply tree)) :=
            ih hmem (isProgram_apply pass' htree)
        _ = applyAll (rest.erase pass) (pass'.apply (pass.apply tree)) := by
            rw [apply_comm hpass pass' htree]
        _ = applyAll (pass :: (pass' :: rest).erase pass) tree := by
            rw [List.erase_cons_tail (by simpa using heq), applyAll_cons, applyAll_cons]

/-- The passes of an order that rearrange statements, in this order. -/
def rearranging (passes : List Pass) : List Pass :=
  (passes.erase flattenValues).erase removeNoise

/-- Only the order of the passes that rearrange statements matters. -/
theorem applyAll_eq_rearranging {passes : List Pass} (horder : passes.Perm pipeline)
    (htree : tree.1.IsProgram nested) :
    applyAll passes tree =
      applyAll (rearranging passes) (removeNoise.apply (flattenValues.apply tree)) := by
  have hvalues : flattenValues ∈ passes := horder.mem_iff.mpr (by decide)
  have hnoise : removeNoise ∈ passes.erase flattenValues :=
    (List.mem_erase_of_ne (by decide)).mpr (horder.mem_iff.mpr (by decide))
  rw [applyAll_eq_cons_erase rfl hvalues htree, applyAll_cons,
    applyAll_eq_cons_erase rfl hnoise (isProgram_apply flattenValues htree), applyAll_cons]
  rfl

theorem rearranging_eq_or {passes : List Pass} (horder : passes.Perm pipeline) :
    rearranging passes = [flattenSequences, segmentBlocks] ∨
      rearranging passes = [segmentBlocks, flattenSequences] :=
  List.perm_pair.mp ((horder.erase flattenValues).erase removeNoise)

theorem rearranging_eq_iff {passes : List Pass} (horder : passes.Perm pipeline) :
    rearranging passes = [flattenSequences, segmentBlocks] ↔
      [flattenSequences, segmentBlocks].Sublist passes := by
  constructor
  · intro h
    rw [← h]
    exact List.erase_sublist.trans List.erase_sublist
  · intro h
    have hlength : (rearranging passes).length = 2 :=
      ((horder.erase flattenValues).erase removeNoise).length_eq
    have hsublist : [flattenSequences, segmentBlocks].Sublist (rearranging passes) :=
      (h.erase flattenValues).erase removeNoise
    exact (hsublist.eq_of_length hlength.symm).symm

end Pass

/-- **Of the order of the passes only one thing matters.**  Applied in some order, each once, the
passes make of every derivation its normal tree, with the same numbers and the same last number
used, exactly if sequences are flattened before basic blocks are formed. -/
theorem applyAll_eq_normalize_iff {passes : List Pass} (horder : passes.Perm Pass.pipeline) :
    (∀ last tokens tree, parseTree last tokens = .ok tree →
      Pass.applyAll passes tree = normalize tree) ↔
    [Pass.flattenSequences, Pass.segmentBlocks].Sublist passes := by
  rw [← Pass.rearranging_eq_iff horder]
  constructor
  · intro hall
    refine (Pass.rearranging_eq_or horder).resolve_right fun hrest => ?_
    -- Among pairs there is nothing to group, so too early a grouping draws no number.
    obtain ⟨tree, hparse, hlast⟩ : ∃ tree, parseTree 0 absoluteTokens = .ok tree ∧
        (Pass.applyAll [.segmentBlocks, .flattenSequences]
          (Pass.removeNoise.apply (Pass.flattenValues.apply tree))).2 ≠ (normalize tree).2 :=
      ⟨_, rfl, by decide +kernel⟩
    have hsame := hall 0 absoluteTokens tree hparse
    rw [Pass.applyAll_eq_rearranging horder (isProgram_of_parseTree hparse), hrest] at hsame
    exact hlast (congrArg Prod.snd hsame)
  · intro hrest last tokens tree hparse
    have htree := isProgram_of_parseTree hparse
    rw [normalize, Pass.applyAll_eq_rearranging horder htree, hrest,
      Pass.applyAll_eq_rearranging (.refl _) htree]
    rfl

/-- Noise can be dropped first, and expressions can be flattened when the blocks are formed. -/
theorem applyAll_absoluteTokens : ∃ tree, parseTree 0 absoluteTokens = .ok tree ∧
    Pass.applyAll [.removeNoise, .flattenSequences, .segmentBlocks, .flattenValues] tree =
      normalize tree := by
  have hparse : ∃ tree, parseTree 0 absoluteTokens = .ok tree := ⟨_, rfl⟩
  obtain ⟨tree, hparse⟩ := hparse
  exact ⟨tree, hparse, (applyAll_eq_normalize_iff (by decide)).mpr (by decide) 0 _ tree hparse⟩

end BlockFlow
