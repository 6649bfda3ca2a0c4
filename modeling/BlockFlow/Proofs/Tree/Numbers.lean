import BlockFlow.Proofs.Tree.Grammatical
import BlockFlow.Proofs.Tree.Normalization

/-!
# The numbers of nodes

Numbers can be drawn while a program is read: a token has one when it is read, and a production has
one when its parts are (`Grammar.Draws`).  That gives the numbers that the finished derivation is
given (`Grammar.parseTree_eq_ok_iff_draws`), so a derivation is numbered in post-order behind the
last number used, without gaps (`Grammar.Draws.map_id_postorder`).

To follow the numbers through normalisation, only the nodes
matter and not what stands below them: each pass is described by what it does to the *stamps* of a
tree, its nodes without their children.  The first three passes drop some of them and keep the
others in their order (`Node.stamps_cleaned`).  Forming basic blocks adds one for each block and
moves the others (`Node.stamps_segmentBlocks`); the new ones have the numbers that are drawn, each
once.

Together these say that normalisation never gives a number away twice (`number_normalize`).
-/

namespace BlockFlow

open Statement (ProperAll sequenceOutline)
open scoped List

namespace Node

/-! ### Post-order -/

mutual

/-- The nodes of a tree, each after its children. -/
def postorder : Node → List Node
  | ⟨id, rule, token, children⟩ => postorderAll children ++ [⟨id, rule, token, children⟩]

/-- The nodes of trees, each after its children. -/
def postorderAll : List Node → List Node
  | [] => []
  | child :: rest => postorder child ++ postorderAll rest

end

/-- Both orders visit the same nodes. -/
theorem postorder_perm (n : Node) : n.postorder.Perm n.preorder := by
  induction n using induct with | node n ih
  obtain ⟨id, rule, token, children⟩ := n
  have hchildren : ∀ ns : List Node, (∀ c ∈ ns, c.postorder.Perm c.preorder) →
      (postorderAll ns).Perm (ns.flatMap preorder) := by
    intro ns hns
    induction ns with
    | nil => exact .refl _
    | cons c rest ihRest =>
      obtain ⟨hc, hrest⟩ := List.forall_mem_cons.mp hns
      rw [postorderAll, List.flatMap_cons]
      exact hc.append (ihRest hrest)
  rw [postorder, preorder_mk]
  exact (List.perm_append_singleton _ _).trans (.cons _ (hchildren children ih))

end Node

/-! ### Numbers drawn while reading -/

namespace Grammar

mutual

/-- What a symbol stands for is read from tokens, and numbers are drawn on the way behind `last`:
one for a token as it is read, and one for a production when its parts have been read.  The result
is a tree, and the last number drawn. -/
inductive Draws : Symbol → (last : Nat) → List Token → Node → (last' : Nat) → Prop where
  | token {kind : Kind} {last : Nat} (t : Token) (kind_eq : t.kind = kind) :
      Draws (.token kind) last [t] ⟨last + 1, .term, some t, []⟩ (last + 1)
  | rule {rule : Rule} {last last' : Nat} {tokens : List Token} {children : List Node}
      (symbols : List Symbol) (production : symbols ∈ productions rule)
      (parts : DrawsAll symbols last tokens children last') :
      Draws (.rule rule) last tokens ⟨last' + 1, rule, none, children⟩ (last' + 1)

/-- Symbols are read one after the other. -/
inductive DrawsAll : List Symbol → (last : Nat) → List Token → List Node → (last' : Nat) →
    Prop where
  | nil (last : Nat) : DrawsAll [] last [] [] last
  | cons {symbol : Symbol} {symbols : List Symbol} {last last₁ last₂ : Nat}
      {tokens tokens' : List Token} {n : Node} {ns : List Node}
      (first : Draws symbol last tokens n last₁)
      (others : DrawsAll symbols last₁ tokens' ns last₂) :
      DrawsAll (symbol :: symbols) last (tokens ++ tokens') (n :: ns) last₂

end

/-- A production makes no leaf of the source and no basic block. -/
theorem rule_ne_of_mem_productions {symbols : List Symbol} {rule : Rule}
    (h : symbols ∈ productions rule) : rule ≠ .term ∧ rule ≠ .basicBlock := by
  constructor
  · rintro rfl
    cases h
  · rintro rfl
    cases h

mutual

/-- Numbers that are drawn on the way are those that the derivation is given in the end. -/
theorem Draws.exists_derives : ∀ {symbol : Symbol} {last last' : Nat} {tokens : List Token}
    {n : Node}, Draws symbol last tokens n last' →
      ∃ d, Derives symbol d ∧ d.leaves = tokens ∧ d.number last = (n, last')
  | _, _, _, _, _, .token t kind_eq =>
    ⟨.leaf t, .token t kind_eq, Outline.leaves_leaf t, by
      rw [Outline.leaf, Outline.number, Outline.numberAll]⟩
  | _, _, _, _, _, .rule symbols production parts => by
    obtain ⟨ds, hds, hleaves, hnumber⟩ := parts.exists_derives
    refine ⟨⟨_, none, ds⟩, .rule symbols production hds, ?_, ?_⟩
    · rw [Outline.leaves, if_neg (rule_ne_of_mem_productions production).1]
      exact hleaves
    · rw [Outline.number, hnumber]

theorem DrawsAll.exists_derives : ∀ {symbols : List Symbol} {last last' : Nat}
    {tokens : List Token} {ns : List Node}, DrawsAll symbols last tokens ns last' →
      ∃ ds, DerivesAll symbols ds ∧ Outline.leavesAll ds = tokens ∧
        Outline.numberAll last ds = (ns, last')
  | _, _, _, _, _, .nil last => ⟨[], .nil, rfl, rfl⟩
  | _, _, _, _, _, .cons first others => by
    obtain ⟨d, hd, rfl, hnumber⟩ := first.exists_derives
    obtain ⟨ds, hds, rfl, hnumbers⟩ := others.exists_derives
    refine ⟨d :: ds, .cons hd hds, rfl, ?_⟩
    simp only [Outline.numberAll, hnumber, hnumbers]

end

mutual

/-- The numbers that a derivation is given are drawn on the way. -/
theorem Derives.draws : ∀ {symbol : Symbol} {d : Outline}, Derives symbol d → ∀ last,
    Draws symbol last d.leaves (d.number last).1 (d.number last).2
  | _, _, .token t kind_eq, last => by
    rw [Outline.leaves_leaf]
    exact .token t kind_eq
  | _, _, .rule symbols production parts, last => by
    rw [Outline.leaves, if_neg (rule_ne_of_mem_productions production).1, Outline.number]
    exact .rule symbols production (parts.draws last)

theorem DerivesAll.draws : ∀ {symbols : List Symbol} {ds : List Outline}, DerivesAll symbols ds →
    ∀ last, DrawsAll symbols last (Outline.leavesAll ds) (Outline.numberAll last ds).1
      (Outline.numberAll last ds).2
  | _, _, .nil, last => .nil last
  | _, _, .cons first others, last => by
    rw [Outline.leavesAll, Outline.numberAll]
    exact .cons (first.draws last) (others.draws _)

end

/-- **Numbers are drawn production by production.**  The tree of a program is what is read as a
sequence from the tokens before the first end marker. -/
theorem parseTree_eq_ok_iff_draws {last : Nat} {tokens : List Token} {tree : Node × Nat} :
    parseTree last tokens = .ok tree ↔ (∃ t ∈ tokens, t.kind = .eof) ∧
      Draws (.rule .sequence) last (beforeMark tokens) tree.1 tree.2 := by
  rw [parseTree_eq_ok_iff]
  constructor
  · rintro ⟨program, hparse, rfl⟩
    obtain ⟨hmark, hproper, htokens⟩ := parse_eq_ok_iff_beforeMark.mp hparse
    obtain ⟨hderives, hleaves⟩ := isDerivation_iff.mpr ⟨program, hproper, htokens, rfl⟩
    exact ⟨hmark, hleaves ▸ hderives.draws last⟩
  · rintro ⟨hmark, hdraws⟩
    obtain ⟨d, hderives, hleaves, hnumber⟩ := hdraws.exists_derives
    obtain ⟨program, hproper, htokens, rfl⟩ := isDerivation_iff.mp ⟨hderives, hleaves⟩
    exact ⟨program, parse_eq_ok_iff_beforeMark.mpr ⟨hmark, hproper, htokens⟩, hnumber.symm⟩

mutual

/-- **Numbers are drawn in post-order, without gaps.** -/
theorem Draws.map_id_postorder : ∀ {symbol : Symbol} {last last' : Nat} {tokens : List Token}
    {n : Node}, Draws symbol last tokens n last' →
      last' = last + n.postorder.length ∧
        n.postorder.map Node.id = List.range' (last + 1) n.postorder.length
  | _, _, _, _, _, .token _ _ => ⟨rfl, rfl⟩
  | _, _, _, _, _, .rule _ _ parts => by
    obtain ⟨hlast, hids⟩ := parts.map_id_postorderAll
    rw [Node.postorder, List.length_append, List.length_singleton]
    refine ⟨by omega, ?_⟩
    rw [List.map_append, hids, List.range'_concat, hlast]
    simp only [List.map_cons, List.map_nil]
    congr 2
    omega

theorem DrawsAll.map_id_postorderAll : ∀ {symbols : List Symbol} {last last' : Nat}
    {tokens : List Token} {ns : List Node}, DrawsAll symbols last tokens ns last' →
      last' = last + (Node.postorderAll ns).length ∧
        (Node.postorderAll ns).map Node.id =
          List.range' (last + 1) (Node.postorderAll ns).length
  | _, _, _, _, _, .nil _ => ⟨rfl, rfl⟩
  | _, _, _, _, _, .cons first others => by
    obtain ⟨hlast, hids⟩ := first.map_id_postorder
    obtain ⟨hlast', hids'⟩ := others.map_id_postorderAll
    rw [Node.postorderAll, List.length_append]
    refine ⟨by omega, ?_⟩
    rw [List.map_append, hids, hids', hlast, Nat.add_right_comm, List.range'_append_1]

end

end Grammar

namespace Node

/-! ### Stamps -/

/-- The nodes of a tree without what stands below them, each before its children. -/
def stamps (n : Node) : List Node :=
  n.preorder.map leaf

/-- The stamps of trees. -/
def stampsAll (ns : List Node) : List Node :=
  ns.flatMap stamps

@[simp] theorem stampsAll_nil : stampsAll [] = [] := rfl

@[simp] theorem stampsAll_cons (n : Node) (rest : List Node) :
    stampsAll (n :: rest) = n.stamps ++ stampsAll rest :=
  List.flatMap_cons

@[simp] theorem stampsAll_append (first second : List Node) :
    stampsAll (first ++ second) = stampsAll first ++ stampsAll second :=
  List.flatMap_append

@[simp] theorem stamps_mk (id : Nat) (rule : Rule) (token : Option Token) (children : List Node) :
    stamps ⟨id, rule, token, children⟩ = ⟨id, rule, token, []⟩ :: stampsAll children := by
  rw [stamps, preorder_mk, List.map_cons, List.map_flatMap]
  rfl

theorem stamps_eq (n : Node) : n.stamps = n.leaf :: stampsAll n.children := by
  obtain ⟨id, rule, token, children⟩ := n
  exact stamps_mk ..

theorem map_id_stamps (n : Node) : n.stamps.map Node.id = n.preorder.map Node.id := by
  rw [stamps, List.map_map]
  rfl

theorem map_id_filter (n : Node) (rule : Rule) :
    (n.preorder.filter (·.rule = rule)).map Node.id =
      (n.stamps.filter (·.rule = rule)).map Node.id := by
  rw [stamps, List.filter_map, List.map_map]
  rfl

/-! ### Passes that drop nodes -/

theorem stampsAll_children_sublist (n : Node) : (stampsAll n.children).Sublist n.stamps := by
  rw [stamps_eq]
  exact List.sublist_cons_self ..

theorem leaf_sublist_stamps (n : Node) : [n.leaf].Sublist n.stamps := by
  rw [stamps_eq]
  exact List.singleton_sublist.mpr List.mem_cons_self

/-- What stands below a pair is found again in the pair. -/
theorem stamps_pair (id' : Nat) (token' : Option Token) (wrapped : List Node) (rest : Node) :
    stampsAll [⟨id', .wrapper, token', wrapped⟩, rest] =
      ⟨id', .wrapper, token', []⟩ :: (stampsAll wrapped ++ rest.stamps) := by
  simp

theorem stamps_flattenSequences (n : Node) : n.flattenSequences.stamps.Sublist n.stamps := by
  have hboth : (∀ n : Node, n.flattenSequences.stamps.Sublist n.stamps) ∧
      ∀ ns, (stampsAll (flattenSequencesAll ns)).Sublist (stampsAll ns) := by
    refine flattenSequences.mutual_induct _ _ ?empty ?pair ?other ?nil ?cons
    case empty =>
      intro id token id' token' rest ih
      have hrest := (stampsAll_children_sublist rest.flattenSequences).trans ih
      rw [flattenSequences, stamps_mk, stamps_mk, stamps_pair]
      exact (hrest.cons _).cons_cons _
    case pair =>
      intro id token id' token' statement more rest ihStatement ihRest
      have hrest := (stampsAll_children_sublist rest.flattenSequences).trans ihRest
      have hstatement := ihStatement.trans (List.sublist_append_left _ (stampsAll more))
      rw [flattenSequences, stamps_mk, stamps_mk, stamps_pair, stampsAll_cons, stampsAll_cons]
      exact ((hstatement.append hrest).cons _).cons_cons _
    case other =>
      intro id rule token children hempty hpair ih
      rw [flattenSequences, stamps_mk, stamps_mk]
      · exact ih.cons_cons _
      · exact hempty
      · exact hpair
    case nil => exact .refl _
    case cons =>
      intro child rest ihChild ihRest
      rw [flattenSequencesAll, stampsAll_cons, stampsAll_cons]
      exact ihChild.append ihRest
  exact hboth.1 n

theorem stamps_flattenValues (n : Node) : n.flattenValues.stamps.Sublist n.stamps := by
  have hboth : (∀ n : Node, n.flattenValues.stamps.Sublist n.stamps) ∧
      ∀ ns, (stampsAll (flattenValuesAll ns)).Sublist (stampsAll ns) := by
    refine flattenValues.mutual_induct _ _ ?node ?nil ?operand ?other
    case node =>
      intro id rule token children ih
      rw [flattenValues, stamps_mk, stamps_mk]
      exact ih.cons_cons _
    case nil => exact .refl _
    case operand =>
      intro id token operand id' token' rest ih
      have hoperand := (leaf_sublist_stamps operand).trans
        (List.sublist_append_left _ (stampsAll [⟨id', .tail, token', []⟩]))
      rw [flattenValuesAll, stampsAll_cons, stampsAll_cons, stamps_mk, stampsAll_cons]
      exact (hoperand.cons _).append ih
    case other =>
      intro child rest hother ihChild ihRest
      rw [flattenValuesAll, stampsAll_cons, stampsAll_cons]
      · exact ihChild.append ihRest
      · exact hother
  exact hboth.1 n

theorem stamps_removeNoise (n : Node) : n.removeNoise.stamps.Sublist n.stamps := by
  have hboth : (∀ n : Node, n.removeNoise.stamps.Sublist n.stamps) ∧
      ∀ ns, (stampsAll (removeNoiseAll ns)).Sublist (stampsAll ns) := by
    refine removeNoise.mutual_induct _ _ ?node ?nil ?noise ?leaf ?other
    case node =>
      intro id rule token children ih
      rw [removeNoise, stamps_mk, stamps_mk]
      exact ih.cons_cons _
    case nil => exact .refl _
    case noise =>
      intro child rest kind hkind hnoise ih
      simp only [removeNoiseAll, hkind, hnoise, if_true, stampsAll_cons]
      exact ih.trans (List.sublist_append_right ..)
    case leaf =>
      intro child rest kind hkind hnoise ih
      simp only [removeNoiseAll, hkind, if_neg hnoise, stampsAll_cons]
      exact (leaf_sublist_stamps child).append ih
    case other =>
      intro child rest hkind ihChild ihRest
      simp only [removeNoiseAll, hkind, stampsAll_cons]
      exact ihChild.append ihRest
  exact hboth.1 n

/-- **The first three passes give no node a number, a rule or a token that it had not.** -/
theorem stamps_cleaned (n : Node) : n.cleaned.stamps.Sublist n.stamps :=
  ((stamps_removeNoise _).trans (stamps_flattenValues _)).trans (stamps_flattenSequences n)

/-! ### Forming basic blocks -/

/-- The stamps of basic blocks that are numbered behind the last number used. -/
def newBlocks (last count : Nat) : List Node :=
  (List.range' (last + 1) count).map fun id => ⟨id, .basicBlock, none, []⟩

theorem newBlocks_succ (last count : Nat) :
    newBlocks last (count + 1) =
      ⟨last + 1, .basicBlock, none, []⟩ :: newBlocks (last + 1) count := by
  rw [newBlocks, List.range'_succ]
  rfl

theorem newBlocks_add (last count count' : Nat) :
    newBlocks last (count + count') = newBlocks last count ++ newBlocks (last + count) count' := by
  rw [newBlocks, newBlocks, newBlocks, ← List.map_append, Nat.add_right_comm last count,
    List.range'_append_1]

theorem map_id_newBlocks (last count : Nat) :
    (newBlocks last count).map Node.id = List.range' (last + 1) count := by
  rw [newBlocks, List.map_map]
  exact List.map_id _

/-- Grouping adds a node for each block. -/
theorem stampsAll_numberSegments (segments : List Segment) (last : Nat) :
    stampsAll (numberSegments last segments) ~
      stampsAll (segments.flatMap Segment.statements) ++ newBlocks last (blockCount segments) := by
  induction segments generalizing last with
  | nil => exact .refl _
  | cons segment rest ih =>
    cases segment with
    | single s =>
      have hstatements : stampsAll ((Segment.single s :: rest).flatMap Segment.statements) =
          s.stamps ++ stampsAll (rest.flatMap Segment.statements) := stampsAll_cons ..
      rw [hstatements, numberSegments, stampsAll_cons, blockCount_single, List.append_assoc]
      exact (ih last).append_left s.stamps
    | block statements =>
      have hstatements : stampsAll ((Segment.block statements :: rest).flatMap Segment.statements) =
          stampsAll statements ++ stampsAll (rest.flatMap Segment.statements) :=
        stampsAll_append ..
      rw [hstatements, numberSegments, stampsAll_cons, stamps_mk, blockCount_block, newBlocks_succ,
        List.append_assoc, List.cons_append]
      -- The new block stands in front of its statements here, and behind all statements there.
      calc _ :: (stampsAll statements ++ stampsAll (numberSegments (last + 1) rest))
        _ ~ _ :: (stampsAll statements ++ (stampsAll (rest.flatMap Segment.statements) ++
              newBlocks (last + 1) (blockCount rest))) := ((ih (last + 1)).append_left _).cons _
        _ ~ stampsAll statements ++ _ :: (stampsAll (rest.flatMap Segment.statements) ++
              newBlocks (last + 1) (blockCount rest)) := List.perm_middle.symm
        _ ~ _ := List.perm_middle.symm.append_left _

theorem map_rule_segmentBlocksAll (ns : List Node) (last : Nat) :
    (segmentBlocksAll last ns).1.map rule = ns.map rule := by
  induction ns generalizing last with
  | nil => rfl
  | cons n rest ih =>
    rw [segmentBlocksAll, List.map_cons, List.map_cons, rule_segmentBlocks, ih]

/-- What is added to trees one after the other is added to them all. -/
theorem stampsAll_segmentBlocksAll {ns : List Node}
    (h : ∀ c ∈ ns, ∀ last, ∃ count, (c.segmentBlocks last).2 = last + count ∧
      (c.segmentBlocks last).1.stamps ~ c.stamps ++ newBlocks last count) (last : Nat) :
    ∃ count, (segmentBlocksAll last ns).2 = last + count ∧
      stampsAll (segmentBlocksAll last ns).1 ~ stampsAll ns ++ newBlocks last count := by
  induction ns generalizing last with
  | nil => exact ⟨0, rfl, .refl _⟩
  | cons c rest ih =>
    obtain ⟨hc, hrest⟩ := List.forall_mem_cons.mp h
    obtain ⟨count, hlast, hstamps⟩ := hc last
    obtain ⟨count', hlast', hstamps'⟩ := ih hrest (last + count)
    refine ⟨count + count', ?_, ?_⟩
    · rw [segmentBlocksAll]
      simp only [hlast, hlast', Nat.add_assoc]
    · rw [segmentBlocksAll]
      simp only [hlast, stampsAll_cons, newBlocks_add, List.append_assoc]
      calc (c.segmentBlocks last).1.stamps ++ stampsAll (segmentBlocksAll (last + count) rest).1
        _ ~ (c.stamps ++ newBlocks last count) ++
              (stampsAll rest ++ newBlocks (last + count) count') := hstamps.append hstamps'
        _ = c.stamps ++ (newBlocks last count ++
              (stampsAll rest ++ newBlocks (last + count) count')) := List.append_assoc ..
        _ ~ _ := (List.perm_append_comm_assoc ..).append_left _

/-- **Forming basic blocks keeps all nodes and adds the blocks.**  The blocks have the numbers that
are drawn, each once. -/
theorem stamps_segmentBlocks (n : Node) (last : Nat) : ∃ count,
    (n.segmentBlocks last).2 = last + count ∧
      (n.segmentBlocks last).1.stamps ~ n.stamps ++ newBlocks last count := by
  induction n using induct generalizing last with | node n ih
  rw [stamps_eq n]
  by_cases hrule : n.rule = .sequence
  · -- The numbers of the blocks of this sequence are drawn first.
    let blocks := blockCount (segmentsFrom [] n.children)
    obtain ⟨count, hlast, hstamps⟩ := stampsAll_segmentBlocksAll ih (last + blocks)
    have hblocks : blockCount (segmentsFrom [] (segmentBlocksAll (last + blocks) n.children).1) =
        blocks := blockCount_segmentsFrom (map_rule_segmentBlocksAll ..) rfl
    have hgroups := stampsAll_numberSegments
      (segmentsFrom [] (segmentBlocksAll (last + blocks) n.children).1) last
    rw [hblocks, flatMap_segmentsFrom, List.nil_append] at hgroups
    refine ⟨blocks + count, ?_, ?_⟩
    · rw [segmentBlocks_of_sequence hrule, ← Nat.add_assoc]
      exact hlast
    · rw [segmentBlocks_of_sequence hrule, stamps_mk, newBlocks_add]
      refine List.Perm.cons _ ?_
      calc _
        _ ~ _ := hgroups
        _ ~ (stampsAll n.children ++ newBlocks (last + blocks) count) ++ newBlocks last blocks :=
            hstamps.append_right _
        _ = stampsAll n.children ++ (newBlocks (last + blocks) count ++ newBlocks last blocks) :=
            List.append_assoc ..
        _ ~ _ := List.perm_append_comm.append_left _
  · obtain ⟨count, hlast, hstamps⟩ := stampsAll_segmentBlocksAll ih last
    refine ⟨count, ?_, ?_⟩
    · rw [segmentBlocks_of_ne hrule, hlast]
    · rw [segmentBlocks_of_ne hrule, stamps_mk]
      exact hstamps.cons _

theorem id_segmentBlocks (n : Node) (last : Nat) : (n.segmentBlocks last).1.id = n.id := by
  by_cases hrule : n.rule = .sequence
  · rw [segmentBlocks_of_sequence hrule]
  · rw [segmentBlocks_of_ne hrule]

theorem id_cleaned (n : Node) : n.cleaned.id = n.id := by
  rw [cleaned, removeNoise_eq, flattenValues_eq]
  unfold flattenSequences
  split <;> rfl

end Node

/-! ### Derivations hold no basic blocks -/

namespace Grammar

mutual

theorem Draws.rule_ne_basicBlock : ∀ {symbol : Symbol} {last last' : Nat} {tokens : List Token}
    {n : Node}, Draws symbol last tokens n last' → ∀ m ∈ n.stamps, m.rule ≠ .basicBlock
  | _, _, _, _, _, .token _ _, m, hm => by
    rw [Node.stamps_mk] at hm
    rw [List.mem_singleton.mp hm]
    exact fun h => by cases h
  | _, _, _, _, _, .rule _ production parts, m, hm => by
    rw [Node.stamps_mk] at hm
    rcases List.mem_cons.mp hm with rfl | hm
    · exact (rule_ne_of_mem_productions production).2
    · exact parts.rule_ne_basicBlock m hm

theorem DrawsAll.rule_ne_basicBlock : ∀ {symbols : List Symbol} {last last' : Nat}
    {tokens : List Token} {ns : List Node}, DrawsAll symbols last tokens ns last' →
      ∀ m ∈ Node.stampsAll ns, m.rule ≠ .basicBlock
  | _, _, _, _, _, .nil _, m, hm => by cases hm
  | _, _, _, _, _, .cons first others, m, hm => by
    rw [Node.stampsAll_cons] at hm
    rcases List.mem_append.mp hm with hm | hm
    · exact first.rule_ne_basicBlock m hm
    · exact others.rule_ne_basicBlock m hm

end

end Grammar

/-! ### Numbers of derivations and normal trees -/

/-- The nodes of a normal tree are nodes of the derivation and new blocks. -/
theorem stamps_normalize (tree : Node × Nat) : ∃ count, (normalize tree).2 = tree.2 + count ∧
    (normalize tree).1.stamps ~ tree.1.cleaned.stamps ++ Node.newBlocks tree.2 count := by
  rw [normalize_eq]
  exact tree.1.cleaned.stamps_segmentBlocks tree.2

/-- The numbers of a derivation are those drawn for it. -/
theorem map_id_parseTree {last : Nat} {tokens : List Token} {tree : Node × Nat}
    (h : parseTree last tokens = .ok tree) :
    tree.1.postorder.map Node.id = List.range' (last + 1) tree.1.preorder.length ∧
      tree.2 = last + tree.1.preorder.length := by
  obtain ⟨-, hdraws⟩ := Grammar.parseTree_eq_ok_iff_draws.mp h
  obtain ⟨hlast, hids⟩ := hdraws.map_id_postorder
  rw [← tree.1.postorder_perm.length_eq]
  exact ⟨hids, hlast⟩

theorem rule_ne_basicBlock_of_parseTree {last : Nat} {tokens : List Token} {tree : Node × Nat}
    (h : parseTree last tokens = .ok tree) : ∀ m ∈ tree.1.stamps, m.rule ≠ .basicBlock :=
  (Grammar.parseTree_eq_ok_iff_draws.mp h).2.rule_ne_basicBlock

/-- **Numbers name nodes.**  A derivation of `n` nodes is numbered in post-order by the `n` numbers
that follow the last number used before.  In its normal tree no number occurs twice, and the root
has the number that it had.  A node that is no basic block has number, rule and token of a node of
the derivation; the basic blocks have the numbers that were drawn since, each once. -/
theorem number_normalize {last : Nat} {tokens : List Token} {tree : Node × Nat}
    (h : parseTree last tokens = .ok tree) :
    tree.1.postorder.map Node.id = List.range' (last + 1) tree.1.preorder.length ∧
    tree.2 = last + tree.1.preorder.length ∧
    ((normalize tree).1.preorder.map Node.id).Nodup ∧
    (normalize tree).1.id = tree.1.id ∧
    (∀ m ∈ (normalize tree).1.preorder, m.rule ≠ .basicBlock →
      ∃ m' ∈ tree.1.preorder, m'.id = m.id ∧ m'.rule = m.rule ∧ m'.token = m.token) ∧
    ∃ count, (normalize tree).2 = tree.2 + count ∧
      (((normalize tree).1.preorder.filter (·.rule = .basicBlock)).map Node.id).Perm
        (List.range' (tree.2 + 1) count) := by
  obtain ⟨hids, hlast⟩ := map_id_parseTree h
  obtain ⟨count, hdrawn, hstamps⟩ := stamps_normalize tree
  have hkept := tree.1.stamps_cleaned
  refine ⟨hids, hlast, ?nodup, ?root, ?kept, count, hdrawn, ?blocks⟩
  case nodup =>
    have hderived : (tree.1.preorder.map Node.id).Perm
        (List.range' (last + 1) tree.1.preorder.length) := by
      rw [← hids]
      exact (tree.1.postorder_perm.map Node.id).symm
    have hkeptIds : (tree.1.cleaned.stamps.map Node.id).Sublist (tree.1.preorder.map Node.id) := by
      rw [← Node.map_id_stamps]
      exact hkept.map Node.id
    rw [← Node.map_id_stamps, (hstamps.map Node.id).nodup_iff, List.map_append,
      Node.map_id_newBlocks, List.nodup_append]
    refine ⟨hkeptIds.nodup (hderived.nodup_iff.mpr List.nodup_range'), List.nodup_range', ?_⟩
    -- What was drawn before is smaller than what was drawn since.
    intro id hid id' hid'
    have hold := List.mem_range'_1.mp (hderived.mem_iff.mp (hkeptIds.subset hid))
    have hnew := List.mem_range'_1.mp hid'
    omega
  case root => rw [normalize_eq, Node.id_segmentBlocks, Node.id_cleaned]
  case kept =>
    intro m hm hrule
    have hm : m.leaf ∈ (normalize tree).1.stamps := List.mem_map_of_mem hm
    rcases List.mem_append.mp (hstamps.mem_iff.mp hm) with hm | hm
    · obtain ⟨m', hm', hsame⟩ := List.mem_map.mp (hkept.subset hm)
      exact ⟨m', hm', by simpa [Node.leaf] using hsame⟩
    · obtain ⟨id, -, hblock⟩ := List.mem_map.mp hm
      exact absurd (congrArg Node.rule hblock).symm hrule
  case blocks =>
    have hold : tree.1.cleaned.stamps.filter (·.rule = .basicBlock) = [] := by
      simpa using fun m hm => rule_ne_basicBlock_of_parseTree h m (hkept.subset hm)
    have hnew : (Node.newBlocks tree.2 count).filter (·.rule = .basicBlock) =
        Node.newBlocks tree.2 count := by
      refine List.filter_eq_self.mpr fun m hm => ?_
      obtain ⟨id, -, rfl⟩ := List.mem_map.mp hm
      rfl
    rw [Node.map_id_filter, ← Node.map_id_newBlocks]
    have hblocks := (hstamps.filter (·.rule = .basicBlock)).map Node.id
    rwa [List.filter_append, hold, hnew] at hblocks

/-- The normal tree of the program with a conditional has three blocks, and the numbers before these
belong to its derivation. -/
theorem number_absoluteTokens : ∃ tree, parseTree 7 absoluteTokens = .ok tree ∧
    tree.2 = 60 ∧ ((normalize tree).1.preorder.map Node.id).Nodup ∧
    (((normalize tree).1.preorder.filter (·.rule = .basicBlock)).map Node.id).Perm
      [61, 62, 63] := by
  have hparse : ∃ tree, parseTree 7 absoluteTokens = .ok tree ∧ tree.2 = 60 ∧
      (normalize tree).2 = 63 := ⟨_, rfl, by decide +kernel, by decide +kernel⟩
  obtain ⟨tree, hparse, hlast, hdrawn⟩ := hparse
  obtain ⟨-, -, hnodup, -, -, count, hcount, hblocks⟩ := number_normalize hparse
  obtain rfl : count = 3 := by omega
  rw [hlast] at hblocks
  exact ⟨tree, hparse, hlast, hnodup, hblocks⟩

end BlockFlow
