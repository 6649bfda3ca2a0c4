import BlockFlow.Proofs.Tree.Segments
import Mathlib.Data.List.Forall2

/-!
# Trees read as the same code before and after grouping

A tree that reads as code still does when basic blocks are formed (`Node.reads_segmentBlocks`).
Here the converse is shown, so that no tree becomes readable by grouping
(`Node.reads_segmentBlocks_iff`).  Nothing is assumed of the tree.  Blocks may be formed in places
where no statements should stand, but what is formed there is no part of any expression: an operator
and an operand are no blocks (`Node.GroupsTo.children_of_no_block`).

Where a tree can be read, everything has its counterpart in the ungrouped tree (`Node.GroupsTo`),
and a block stands for the statements in it, since straight-line code is a sequence of statements
that read as code one by one (`Straight.reads`).
-/

namespace BlockFlow

variable {vars : List String}

namespace Node

/-! ### Counterparts -/

/-- The second tree is what forming basic blocks makes of the first, whatever numbers they get. -/
def GroupsTo (n n' : Node) : Prop :=
  ∃ last, (n.segmentBlocks last).1 = n'

theorem groupsTo_segmentBlocks (n : Node) (last : Nat) : n.GroupsTo (n.segmentBlocks last).1 :=
  ⟨last, rfl⟩

theorem forall₂_segmentBlocksAll (last : Nat) (ns : List Node) :
    ns.Forall₂ GroupsTo (segmentBlocksAll last ns).1 := by
  induction ns generalizing last with
  | nil => exact .nil
  | cons n rest ih => exact .cons ⟨last, rfl⟩ (ih _)

namespace GroupsTo

variable {n n' : Node}

theorem rule_eq (h : n.GroupsTo n') : n.rule = n'.rule := by
  obtain ⟨last, rfl⟩ := h
  exact (rule_segmentBlocks last n).symm

theorem token_eq (h : n.GroupsTo n') : n.token = n'.token := by
  obtain ⟨last, rfl⟩ := h
  exact (token_segmentBlocks last n).symm

theorem isTerm_eq (h : n.GroupsTo n') (kind : Kind) : n.isTerm kind = n'.isTerm kind := by
  rw [isTerm, isTerm, kind?, kind?, h.rule_eq, h.token_eq]

theorem children_of_ne (h : n.GroupsTo n') (hrule : n'.rule ≠ .sequence) :
    n.children.Forall₂ GroupsTo n'.children := by
  obtain ⟨last, rfl⟩ := h
  rw [children_segmentBlocks_of_ne (by simpa using hrule)]
  exact forall₂_segmentBlocksAll last n.children

theorem children_of_sequence (h : n.GroupsTo n') (hrule : n'.rule = .sequence) :
    ∃ last entered, n.children.Forall₂ GroupsTo entered ∧
      n'.children = numberSegments last (segmentsFrom [] entered) := by
  obtain ⟨last, rfl⟩ := h
  obtain ⟨last', hchildren⟩ := children_segmentBlocks (by simpa using hrule) last
  exact ⟨last, _, forall₂_segmentBlocksAll last' n.children, hchildren⟩

end GroupsTo

/-- Where no block stands every statement stands alone. -/
theorem numberSegments_of_no_block {segments : List Segment} {last : Nat}
    (h : ∀ c ∈ numberSegments last segments, c.rule ≠ .basicBlock) :
    numberSegments last segments = segments.flatMap Segment.statements := by
  induction segments generalizing last with
  | nil => rfl
  | cons segment rest ih =>
    cases segment with
    | single s =>
      rw [numberSegments, ih (List.forall_mem_cons.mp h).2]
      rfl
    | block statements => exact absurd rfl (List.forall_mem_cons.mp h).1

/-- Where no block stands the children are the counterparts of the children. -/
theorem GroupsTo.children_of_no_block {n n' : Node} (h : n.GroupsTo n')
    (hblock : ∀ c ∈ n'.children, c.rule ≠ .basicBlock) :
    n.children.Forall₂ GroupsTo n'.children := by
  by_cases hrule : n'.rule = .sequence
  · obtain ⟨last, entered, hentered, hchildren⟩ := h.children_of_sequence hrule
    rw [hchildren] at hblock ⊢
    rwa [numberSegments_of_no_block hblock, flatMap_segmentsFrom, List.nil_append]
  · exact h.children_of_ne hrule

theorem exists_of_forall₂_pair {ns : List Node} {a' b' : Node} (h : ns.Forall₂ GroupsTo [a', b']) :
    ∃ a b, ns = [a, b] ∧ a.GroupsTo a' ∧ b.GroupsTo b' := by
  obtain ⟨a, rest, ha, hrest, rfl⟩ := List.forall₂_cons_right_iff.mp h
  obtain ⟨b, others, hb, hothers, rfl⟩ := List.forall₂_cons_right_iff.mp hrest
  obtain rfl := List.forall₂_nil_right_iff.mp hothers
  exact ⟨a, b, rfl, ha, hb⟩

/-! ### Expressions -/

namespace GroupsTo

variable {n n' : Node}

/-- **Forming basic blocks makes no expression readable.** -/
theorem toExpr_eq_ok (h : n.GroupsTo n') {e : Expr} (hn' : n'.toExpr vars = .ok e) :
    n.toExpr vars = .ok e := by
  fun_induction toExpr vars n' generalizing n e with
  | case1 => cases hn'
  | case2 =>
    obtain ⟨name, hname, rfl⟩ := exists_of_map_eq_ok hn'
    have hvariable := toVariable_of_token_eq h.token_eq hname
    have hrule := h.rule_eq
    have htoken := h.token_eq
    obtain ⟨id, rule, token, children⟩ := n
    cases hrule
    cases htoken
    exact congrArg (Except.map Expr.load) hvariable
  | case3 =>
    have hrule := h.rule_eq
    have htoken := h.token_eq
    obtain ⟨id, rule, token, children⟩ := n
    cases hrule
    cases htoken
    exact hn'
  | case4 => cases hn'
  | case5 id token left' id' rule' token' operator' right' ihLeft ihRight =>
    obtain ⟨l, hl, hn'⟩ := exists_of_bind_eq_ok hn'
    obtain ⟨op, hop, hn'⟩ := exists_of_bind_eq_ok hn'
    obtain ⟨r, hr, hn'⟩ := exists_of_bind_eq_ok hn'
    cases hn'
    obtain ⟨left, middle, hchildren, hleft, hmiddle⟩ :=
      exists_of_forall₂_pair (h.children_of_ne fun hrule => by cases hrule)
    -- Neither the operator nor the operand is a block, so nothing was grouped around them.
    have hblock : ∀ c ∈ [operator', right'], c.rule ≠ .basicBlock := by
      have hoperator := rule_of_toOp hop
      have hright := rule_of_toExpr hr
      simp only [List.mem_cons, List.not_mem_nil, or_false, forall_eq_or_imp, forall_eq]
      refine ⟨by rw [hoperator]; decide, ?_⟩
      rcases hright with hright | hright
      all_goals
        rw [hright]
        decide
    obtain ⟨operator, right, hmiddleChildren, hoperator, hright⟩ :=
      exists_of_forall₂_pair (hmiddle.children_of_no_block hblock)
    exact toExpr_binary h.rule_eq hchildren hmiddleChildren (ihLeft hleft hl)
      (toOp_of_token_eq hoperator.rule_eq hoperator.token_eq hop) (ihRight hright hr)
  | case6 id token operand' id' rule' token' ih =>
    obtain ⟨operand, middle, hchildren, hoperand, hmiddle⟩ :=
      exists_of_forall₂_pair (h.children_of_ne fun hrule => by cases hrule)
    have hempty : middle.children = [] := List.forall₂_nil_right_iff.mp
      (hmiddle.children_of_no_block fun c hc => absurd hc List.not_mem_nil)
    rw [toExpr_operand h.rule_eq hchildren hempty]
    exact ih hoperand hn'
  | case7 => cases hn'

end GroupsTo

end Node

/-! ### Straight-line code -/

/-- Counterparts of straight-line code are straight-line code. -/
theorem Straight.of_groupsTo {statements' : List Node} {code : List Code} {falls : Bool}
    (h : Straight vars statements' code falls) {statements : List Node}
    (hstatements : statements.Forall₂ Node.GroupsTo statements') :
    Straight vars statements code falls := by
  induction h generalizing statements with
  | nil =>
    obtain rfl := List.forall₂_nil_right_iff.mp hstatements
    exact .nil
  | @assign s' target' value' rest' name e code falls rule children isName reads names _ ih =>
    obtain ⟨s, rest, hs, hrest, rfl⟩ := List.forall₂_cons_right_iff.mp hstatements
    have hchildren := hs.children_of_ne (by rw [rule]; decide)
    rw [children] at hchildren
    obtain ⟨target, value, hchildren, htarget, hvalue⟩ := Node.exists_of_forall₂_pair hchildren
    exact .assign (hs.rule_eq.trans rule) hchildren ((htarget.isTerm_eq .ident).trans isName)
      (hvalue.toExpr_eq_ok reads) (Node.toVariable_of_token_eq htarget.token_eq names) (ih hrest)
  | @ret s' value' rest' e code rule children reads =>
    obtain ⟨s, rest, hs, -, rfl⟩ := List.forall₂_cons_right_iff.mp hstatements
    have hchildren := hs.children_of_ne (by rw [rule]; decide)
    rw [children] at hchildren
    obtain ⟨value, others, hvalue, hothers, hchildren⟩ := List.forall₂_cons_right_iff.mp hchildren
    obtain rfl := List.forall₂_nil_right_iff.mp hothers
    exact .ret (hs.rule_eq.trans rule) hchildren (hvalue.toExpr_eq_ok reads)

/-- **Straight-line code is read statement by statement as well.** -/
theorem Straight.reads {statements : List Node} {code : List Code} {falls : Bool}
    (h : Straight vars statements code falls) {rest : List Node} {after : List Code}
    (hrest : falls = true → Reads vars rest after) :
    Reads vars (statements ++ rest) (code ++ after) := by
  induction h with
  | nil => exact hrest rfl
  | assign rule children isName reads names _ ih =>
    exact .assign rule children isName reads names (ih hrest)
  | ret rule children reads => exact .ret rule children reads

/-! ### Groups -/

/-- What a block reads as is straight-line code. -/
theorem Reads.of_block {id : Nat} {token : Option Token} {statements rest : List Node}
    {code : List Code} (h : Reads vars (⟨id, .basicBlock, token, statements⟩ :: rest) code) :
    ∃ first after falls, code = first ++ after ∧ Straight vars statements first falls ∧
      (falls = true → Reads vars rest after) := by
  cases h with
  | straight is reads others =>
    cases is
    exact ⟨_, _, _, rfl, reads, others⟩
  | cond rule => cases rule
  | loop rule => cases rule

/-- A block in front of other groups can be replaced by the statements in it. -/
theorem Reads.ungroup {id : Nat} {token : Option Token} {statements others rest : List Node}
    {code : List Code} (h : Reads vars (⟨id, .basicBlock, token, statements⟩ :: others) code)
    (hothers : ∀ after, Reads vars others after → Reads vars rest after) :
    Reads vars (statements ++ rest) code := by
  obtain ⟨first, after, falls, rfl, hstraight, hafter⟩ := h.of_block
  exact hstraight.reads fun hfalls => hothers after (hafter hfalls)

/-- **Statements read as the groups that they form.** -/
theorem reads_of_segmentsFrom {nodes : List Node} : ∀ (pending : List Node) {code : List Code}
    {last : Nat}, Reads vars (Node.numberSegments last (Node.segmentsFrom pending nodes)) code →
      Reads vars (pending ++ nodes) code := by
  induction nodes with
  | nil =>
    intro pending code last h
    rw [Node.segmentsFrom, Node.pendingSegment] at h
    split at h
    · rename_i hempty
      rw [List.isEmpty_iff.mp hempty]
      exact h
    · exact h.ungroup fun after hafter => hafter
  | cons s rest ih =>
    intro pending code last h
    rw [Node.segmentsFrom] at h
    split at h
    · have hreads := ih _ h
      rwa [List.append_assoc, List.singleton_append] at hreads
    · have hreads := h.ungroup fun after hafter => ih [] hafter
      rwa [List.append_assoc, List.singleton_append] at hreads
    · unfold Node.pendingSegment at h
      split at h
      · rename_i hempty
        rw [List.isEmpty_iff.mp hempty]
        exact h.replace fun after hafter => ih [] hafter
      · exact h.ungroup fun after hafter => hafter.replace fun after' hafter' =>
          ih [] hafter'

/-! ### Whole trees -/

namespace Node

theorem GroupsTo.exists_straight? {s s' : Node} (h : s.GroupsTo s') {statements' : List Node}
    (his : s'.straight? = some statements') :
    ∃ statements, s.straight? = some statements ∧ statements.Forall₂ GroupsTo statements' := by
  have hrule := h.rule_eq
  unfold straight? at his ⊢
  rw [hrule]
  split at his
  · rename_i hblock
    cases his
    exact ⟨s.children, rfl, h.children_of_ne (by rw [hblock]; decide)⟩
  · cases his
    exact ⟨[s], rfl, .cons h .nil⟩
  · cases his
    exact ⟨[s], rfl, .cons h .nil⟩
  · cases his

/-- Wherever the counterpart of the statement reads as code, with something behind it, the statement
does, with what that is the counterpart of. -/
def Ungroups (vars : List String) (s : Node) : Prop :=
  ∀ ⦃s' : Node⦄, s.GroupsTo s' → ∀ ⦃rest rest' : List Node⦄,
    (∀ after, Reads vars rest' after → Reads vars rest after) →
      ∀ ⦃code : List Code⦄, Reads vars (s' :: rest') code → Reads vars (s :: rest) code

theorem reads_of_forall₂ {nodes nodes' : List Node} (hnodes : ∀ s ∈ nodes, s.Ungroups vars)
    (h : nodes.Forall₂ GroupsTo nodes') {code : List Code} (hreads : Reads vars nodes' code) :
    Reads vars nodes code := by
  induction h generalizing code with
  | nil => exact hreads
  | cons hs _ ih =>
    obtain ⟨hfirst, hrest⟩ := List.forall_mem_cons.mp hnodes
    exact hfirst hs (fun after hafter => ih hrest hafter) hreads

/-- A body reads as its counterpart does. -/
theorem reads_of_groupsTo {n n' : Node} (hn : ∀ s ∈ n.children, s.Ungroups vars)
    (h : n.GroupsTo n') (hrule : n'.rule = .sequence) {code : List Code}
    (hreads : Reads vars n'.children code) : Reads vars n.children code := by
  obtain ⟨last, entered, hentered, hchildren⟩ := h.children_of_sequence hrule
  rw [hchildren] at hreads
  exact reads_of_forall₂ hn hentered (reads_of_segmentsFrom [] hreads)

/-- **Every statement reads as its counterpart does.** -/
theorem ungroups (s : Node) : s.Ungroups vars := by
  -- The statements of a body stand two levels below the statement that the body belongs to.
  have hboth : s.Ungroups vars ∧ ∀ c ∈ s.children, c.Ungroups vars := by
    induction s using induct with | node s ih
    refine ⟨?_, fun c hc => (ih c hc).1⟩
    intro s' hs rest rest' hrest code hreads
    cases hreads with
    | straight is reads others =>
      obtain ⟨statements, is, hstatements⟩ := hs.exists_straight? is
      exact .straight is (reads.of_groupsTo hstatements) fun hfalls => hrest _ (others hfalls)
    | @cond _ test' thenBody' elseBody' _ e thenCode elseCode after rule children reads thenRule
        thenReads elseRule elseReads others =>
      have hchildren := hs.children_of_ne (by rw [rule]; decide)
      rw [children] at hchildren
      obtain ⟨test, bodies, htest, hbodies, hchildren⟩ := List.forall₂_cons_right_iff.mp hchildren
      obtain ⟨thenBody, elseBody, rfl, hthen, helse⟩ := exists_of_forall₂_pair hbodies
      exact .cond (hs.rule_eq.trans rule) hchildren (htest.toExpr_eq_ok reads)
        (hthen.rule_eq.trans thenRule)
        (reads_of_groupsTo (ih thenBody (by simp [hchildren])).2 hthen thenRule thenReads)
        (helse.rule_eq.trans elseRule)
        (reads_of_groupsTo (ih elseBody (by simp [hchildren])).2 helse elseRule elseReads)
        (hrest _ others)
    | @loop _ test' body' _ e code after rule children reads bodyRule bodyReads others =>
      have hchildren := hs.children_of_ne (by rw [rule]; decide)
      rw [children] at hchildren
      obtain ⟨test, body, hchildren, htest, hbody⟩ := exists_of_forall₂_pair hchildren
      exact .loop (hs.rule_eq.trans rule) hchildren (htest.toExpr_eq_ok reads)
        (hbody.rule_eq.trans bodyRule)
        (reads_of_groupsTo (ih body (by simp [hchildren])).2 hbody bodyRule bodyReads)
        (hrest _ others)
  exact hboth.1

/-- **Sequences read as the same code before and after forming basic blocks.** -/
theorem reads_segmentBlocks_iff {n : Node} (hrule : n.rule = .sequence) (last : Nat)
    (code : List Code) :
    Reads vars (n.segmentBlocks last).1.children code ↔ Reads vars n.children code := by
  constructor
  · intro h
    exact reads_of_groupsTo (fun s _ => s.ungroups) (n.groupsTo_segmentBlocks last)
      (by simpa using hrule) h
  · intro h
    exact reads_segmentBlocks hrule h last

end Node

end BlockFlow
