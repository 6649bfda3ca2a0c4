import BlockFlow.Proofs.Lowering.Construction
import BlockFlow.Proofs.Tree.Leaves

/-!
# Basic blocks read as the statements in them

Grouping statements into basic blocks changes neither how expressions read
(`Node.toExpr_segmentBlocks`) nor the code that a sequence reads as (`Node.reads_segmentBlocks`).
This holds of every tree that reads as code, not only of trees of programs.
-/

namespace BlockFlow

variable {vars : List String}

namespace Node

/-! ### One node -/

@[simp] theorem rule_segmentBlocks (last : Nat) (n : Node) :
    (n.segmentBlocks last).1.rule = n.rule := by
  obtain ⟨id, rule, token, children⟩ := n
  cases rule <;> rfl

@[simp] theorem token_segmentBlocks (last : Nat) (n : Node) :
    (n.segmentBlocks last).1.token = n.token := by
  obtain ⟨id, rule, token, children⟩ := n
  cases rule <;> rfl

theorem children_segmentBlocks_of_ne {n : Node} (h : n.rule ≠ .sequence) (last : Nat) :
    (n.segmentBlocks last).1.children = (segmentBlocksAll last n.children).1 := by
  obtain ⟨id, rule, token, children⟩ := n
  cases rule with
  | sequence => exact absurd rfl h
  | _ => rfl

theorem children_segmentBlocks {n : Node} (h : n.rule = .sequence) (last : Nat) : ∃ last',
    (n.segmentBlocks last).1.children =
      numberSegments last (segmentsFrom [] (segmentBlocksAll last' n.children).1) := by
  obtain ⟨id, rule, token, children⟩ := n
  cases h
  exact ⟨_, rfl⟩

theorem isTerm_segmentBlocks (last : Nat) (n : Node) (kind : Kind) :
    (n.segmentBlocks last).1.isTerm kind = n.isTerm kind := by
  rw [isTerm, isTerm, kind?, kind?, rule_segmentBlocks, token_segmentBlocks]

/-- Which variable a leaf names depends on its token only. -/
theorem toVariable_of_token_eq {n n' : Node} (htoken : n'.token = n.token) {name : String}
    (h : n.toVariable vars = .ok name) : n'.toVariable vars = .ok name := by
  unfold toVariable at h ⊢
  rw [htoken]
  split at h
  · split at h
    · rename_i hspelt
      rw [if_pos hspelt]
      exact h
    · cases h
  · cases h

/-- Which operator a leaf stands for depends on its rule and token only. -/
theorem toOp_of_token_eq {n n' : Node} (hrule : n'.rule = n.rule) (htoken : n'.token = n.token)
    {op : Op} (h : n.toOp = .ok op) : n'.toOp = .ok op := by
  unfold toOp at h ⊢
  rw [hrule, htoken]
  split at h
  · split at h
    · exact h
    · cases h
  · cases h

/-- Only a leaf or an expression reads as an expression. -/
theorem rule_of_toExpr {n : Node} {e : Expr} (h : n.toExpr vars = .ok e) :
    n.rule = .term ∨ n.rule = .value := by
  obtain ⟨id, rule, token, children⟩ := n
  cases rule with
  | term => exact .inl rfl
  | value => exact .inr rfl
  | _ =>
    unfold toExpr at h
    cases h

theorem rule_of_toOp {n : Node} {op : Op} (h : n.toOp = .ok op) : n.rule = .term := by
  unfold toOp at h
  split at h
  · assumption
  · cases h

theorem segmentsFrom_of_ne {s : Node} (hassign : s.rule ≠ .assign) (hret : s.rule ≠ .ret)
    (pending rest : List Node) :
    segmentsFrom pending (s :: rest) =
      pendingSegment pending ++ .single s :: segmentsFrom [] rest := by
  rw [segmentsFrom]
  split
  · contradiction
  · contradiction
  · rfl

/-- Two trees that are no statements stay a pair, whatever their parent is. -/
theorem children_segmentBlocks_pair {n first second : Node}
    (hchildren : n.children = [first, second])
    (hfirst : first.rule ≠ .assign ∧ first.rule ≠ .ret)
    (hsecond : second.rule ≠ .assign ∧ second.rule ≠ .ret) (last : Nat) : ∃ last₁ last₂,
      (n.segmentBlocks last).1.children =
        [(first.segmentBlocks last₁).1, (second.segmentBlocks last₂).1] := by
  by_cases hrule : n.rule = .sequence
  · obtain ⟨last', h⟩ := children_segmentBlocks hrule last
    refine ⟨last', (first.segmentBlocks last').2, ?_⟩
    rw [h, hchildren]
    simp only [segmentBlocksAll]
    rw [segmentsFrom_of_ne (by simpa using hfirst.1) (by simpa using hfirst.2),
      segmentsFrom_of_ne (by simpa using hsecond.1) (by simpa using hsecond.2)]
    rfl
  · rw [children_segmentBlocks_of_ne hrule, hchildren]
    exact ⟨last, _, rfl⟩

/-- **Forming basic blocks changes no expression.** -/
theorem toExpr_segmentBlocks {n : Node} {e : Expr} (h : n.toExpr vars = .ok e) (last : Nat) :
    (n.segmentBlocks last).1.toExpr vars = .ok e := by
  fun_induction toExpr vars n generalizing e last with
  | case1 => cases h
  | case2 =>
    obtain ⟨x, hvar, rfl⟩ := exists_of_map_eq_ok h
    exact congrArg (Except.map Expr.load)
      (toVariable_of_token_eq (token_segmentBlocks last _) hvar)
  | case3 => exact h
  | case4 => cases h
  | case5 id token left id' rule' token' operator right ihLeft ihRight =>
    obtain ⟨l, hl, h⟩ := exists_of_bind_eq_ok h
    obtain ⟨op, hop, h⟩ := exists_of_bind_eq_ok h
    obtain ⟨r, hr, h⟩ := exists_of_bind_eq_ok h
    cases h
    -- The operator is a leaf and the operand no statement, so they stay the two children of the
    -- tail even if its rule is that of a sequence.
    have hoperator : operator.rule ≠ .assign ∧ operator.rule ≠ .ret := by
      rw [rule_of_toOp hop]
      decide
    have hright : right.rule ≠ .assign ∧ right.rule ≠ .ret := by
      rcases rule_of_toExpr hr with hrule | hrule
      all_goals
        rw [hrule]
        decide
    have hparent : (segmentBlocks last ⟨id, .value, token,
        [left, ⟨id', rule', token', [operator, right]⟩]⟩).1.children =
          [(left.segmentBlocks last).1, (segmentBlocks (left.segmentBlocks last).2
            ⟨id', rule', token', [operator, right]⟩).1] := rfl
    obtain ⟨last₁, last₂, hmiddle⟩ := children_segmentBlocks_pair
      (n := ⟨id', rule', token', [operator, right]⟩) rfl hoperator hright
      (left.segmentBlocks last).2
    exact toExpr_binary rfl hparent hmiddle (ihLeft hl last)
      (toOp_of_token_eq (rule_segmentBlocks ..) (token_segmentBlocks ..) hop) (ihRight hr last₂)
  | case6 id token operand id' rule' token' ih =>
    have hparent : (segmentBlocks last ⟨id, .value, token,
        [operand, ⟨id', rule', token', []⟩]⟩).1.children =
          [(operand.segmentBlocks last).1, (segmentBlocks (operand.segmentBlocks last).2
            ⟨id', rule', token', []⟩).1] := rfl
    have hmiddle : (segmentBlocks (operand.segmentBlocks last).2
        ⟨id', rule', token', []⟩).1.children = [] := by
      cases rule' <;> rfl
    rw [toExpr_operand rfl hparent hmiddle]
    exact ih h last
  | case7 => cases h

end Node

/-! ### Straight-line code -/

/-- Straight-line code behind straight-line code. -/
theorem Straight.append {first second : List Node} {code after : List Code} {falls : Bool}
    (h : Straight vars first code true) (h' : Straight vars second after falls) :
    Straight vars (first ++ second) (code ++ after) falls := by
  generalize hfalls : true = flag at h
  induction h with
  | nil => exact h'
  | assign rule children isName reads names _ ih =>
    exact .assign rule children isName reads names (ih hfalls)
  | ret => cases hfalls

/-- Going into statements without branches changes nothing about them. -/
theorem Straight.segmentBlocksAll {statements : List Node} {code : List Code} {falls : Bool}
    (h : Straight vars statements code falls) (last : Nat) :
    Straight vars (Node.segmentBlocksAll last statements).1 code falls := by
  induction h generalizing last with
  | nil => exact .nil
  | @assign s target value rest name e code falls rule children isName reads names _ ih =>
    have hchildren : (s.segmentBlocks last).1.children = [(target.segmentBlocks last).1,
        (value.segmentBlocks (target.segmentBlocks last).2).1] := by
      rw [Node.children_segmentBlocks_of_ne (by rw [rule]; decide), children]
      rfl
    exact .assign ((Node.rule_segmentBlocks last s).trans rule) hchildren
      ((Node.isTerm_segmentBlocks last target .ident).trans isName)
      (Node.toExpr_segmentBlocks reads _)
      (Node.toVariable_of_token_eq (Node.token_segmentBlocks ..) names) (ih _)
  | @ret s value rest e code rule children reads =>
    have hchildren : (s.segmentBlocks last).1.children = [(value.segmentBlocks last).1] := by
      rw [Node.children_segmentBlocks_of_ne (by rw [rule]; decide), children]
      rfl
    exact .ret ((Node.rule_segmentBlocks last s).trans rule) hchildren
      (Node.toExpr_segmentBlocks reads _)

/-! ### Grouping -/

/-- What follows a statement can be replaced by what reads as the same code. -/
theorem Reads.replace {s : Node} {rest rest' : List Node} {code : List Code}
    (h : Reads vars (s :: rest) code)
    (hrest : ∀ after, Reads vars rest after → Reads vars rest' after) :
    Reads vars (s :: rest') code := by
  cases h with
  | straight is reads others => exact .straight is reads fun hfalls => hrest _ (others hfalls)
  | cond rule children reads thenRule thenReads elseRule elseReads others =>
    exact .cond rule children reads thenRule thenReads elseRule elseReads (hrest _ others)
  | loop rule children reads bodyRule bodyReads others =>
    exact .loop rule children reads bodyRule bodyReads (hrest _ others)

/-- An assignment or a return reads as straight-line code. -/
theorem Reads.straight_of_rule {s : Node} {rest : List Node} {code : List Code}
    (h : Reads vars (s :: rest) code) (hrule : s.rule = .assign ∨ s.rule = .ret) :
    ∃ first after falls, code = first ++ after ∧ Straight vars [s] first falls ∧
      (falls = true → Reads vars rest after) := by
  cases h with
  | @straight _ statements _ first after falls is reads others =>
    have hstatements : statements = [s] := by
      unfold Node.straight? at is
      rcases hrule with hrule | hrule
      all_goals
        rw [hrule] at is
        exact (Option.some.inj is).symm
    rw [hstatements] at reads
    exact ⟨first, after, falls, rfl, reads, others⟩
  | cond rule => simp [rule] at hrule
  | loop rule => simp [rule] at hrule

/-- Assignments in front of a sequence are straight-line code that control comes to the end of. -/
theorem Reads.pending {pending rest : List Node} {code : List Code}
    (hpending : ∀ s ∈ pending, s.rule = .assign) (h : Reads vars (pending ++ rest) code) :
    ∃ first after, code = first ++ after ∧ Straight vars pending first true ∧
      Reads vars rest after := by
  induction pending generalizing code with
  | nil => exact ⟨[], code, rfl, .nil, h⟩
  | cons s pending ih =>
    have hrule := hpending s List.mem_cons_self
    obtain ⟨first, after, falls, rfl, hstraight, hothers⟩ := h.straight_of_rule (.inl hrule)
    cases hstraight with
    | ret rule => rw [hrule] at rule; cases rule
    | assign rule children isName reads names others =>
      cases others
      obtain ⟨first', after', rfl, hstraight', hrest⟩ :=
        ih (fun s' hs' => hpending s' (List.mem_cons_of_mem _ hs')) (hothers rfl)
      exact ⟨_, after', rfl, .assign rule children isName reads names hstraight', hrest⟩

/-- The statements that wait become a block in front of the other groups. -/
theorem reads_pendingSegment {pending : List Node} {segments : List Node.Segment}
    {code after : List Code} (h : Straight vars pending code true)
    (hsegments : ∀ last, Reads vars (Node.numberSegments last segments) after) (last : Nat) :
    Reads vars (Node.numberSegments last (Node.pendingSegment pending ++ segments))
      (code ++ after) := by
  unfold Node.pendingSegment
  split
  · rename_i hempty
    rw [List.isEmpty_iff.mp hempty] at h
    cases h
    exact hsegments last
  · rw [List.singleton_append, Node.numberSegments]
    exact .straight rfl h fun _ => hsegments _

/-- **Groups read as the statements in them.** -/
theorem reads_segmentsFrom {nodes : List Node} : ∀ {pending : List Node} {code : List Code},
    (∀ s ∈ pending, s.rule = .assign) → Reads vars (pending ++ nodes) code → ∀ last,
      Reads vars (Node.numberSegments last (Node.segmentsFrom pending nodes)) code := by
  induction nodes with
  | nil =>
    intro pending code hpending h last
    obtain ⟨first, after, rfl, hstraight, hrest⟩ := h.pending hpending
    rw [Node.segmentsFrom, ← List.append_nil (Node.pendingSegment pending)]
    exact @reads_pendingSegment vars pending [] _ _ hstraight (fun _ => hrest) last
  | cons s rest ih =>
    intro pending code hpending h last
    have hothers : ∀ last' after, Reads vars rest after →
        Reads vars (Node.numberSegments last' (Node.segmentsFrom [] rest)) after :=
      fun last' after hrest => @ih [] after (fun s' hs' => by cases hs') hrest last'
    rw [Node.segmentsFrom]
    split
    · rename_i hrule
      refine ih (fun s' hs' => ?_) (by rwa [List.append_assoc, List.singleton_append]) last
      rcases List.mem_append.mp hs' with hs' | hs'
      · exact hpending s' hs'
      · rw [List.mem_singleton.mp hs', hrule]
    · rename_i hrule
      obtain ⟨first, after, rfl, hstraight, hrest⟩ := h.pending hpending
      obtain ⟨second, after, falls, rfl, hstraight', hrest'⟩ :=
        hrest.straight_of_rule (.inr hrule)
      rw [Node.numberSegments, ← List.append_assoc]
      exact .straight rfl (hstraight.append hstraight') fun hfalls =>
        hothers _ after (hrest' hfalls)
    · obtain ⟨first, after, rfl, hstraight, hrest⟩ := h.pending hpending
      exact @reads_pendingSegment vars pending (.single s :: Node.segmentsFrom [] rest) _ _
        hstraight (fun last' => hrest.replace (hothers last')) last

/-! ### Whole trees -/

namespace Node

theorem straight?_segmentBlocks {s : Node} {statements : List Node}
    (h : s.straight? = some statements) (last : Nat) : ∃ last',
      (s.segmentBlocks last).1.straight? = some (segmentBlocksAll last' statements).1 := by
  obtain ⟨id, rule, token, children⟩ := s
  refine ⟨last, ?_⟩
  cases rule <;> cases h <;> rfl

/-- A sequence whose statements were gone into still has to be grouped. -/
theorem reads_children_segmentBlocks {n : Node} {code : List Code} (hrule : n.rule = .sequence)
    (h : ∀ last, Reads vars (segmentBlocksAll last n.children).1 code) (last : Nat) :
    Reads vars (n.segmentBlocks last).1.children code := by
  obtain ⟨last', hchildren⟩ := children_segmentBlocks hrule last
  rw [hchildren]
  exact @reads_segmentsFrom vars _ [] _ (fun s' hs' => by cases hs') (h last') last

/-- Going into the statements of a sequence keeps what it reads as. -/
theorem reads_segmentBlocksAll {nodes : List Node} {code : List Code} (h : Reads vars nodes code) :
    ∀ last, Reads vars (segmentBlocksAll last nodes).1 code := by
  induction h with
  | nil => exact fun _ => .nil
  | straight is reads _ ih =>
    intro last
    obtain ⟨last', is'⟩ := straight?_segmentBlocks is last
    exact .straight is' (reads.segmentBlocksAll last') fun hfalls => ih hfalls _
  | @cond s test thenBody elseBody rest e thenCode elseCode after rule children reads thenRule _
      elseRule _ _ ihThen ihElse ih =>
    intro last
    have hchildren : ∃ last₁ last₂, (s.segmentBlocks last).1.children =
        [(test.segmentBlocks last).1, (thenBody.segmentBlocks last₁).1,
          (elseBody.segmentBlocks last₂).1] := by
      rw [children_segmentBlocks_of_ne (by rw [rule]; decide), children]
      exact ⟨_, _, rfl⟩
    obtain ⟨last₁, last₂, hchildren⟩ := hchildren
    exact .cond ((rule_segmentBlocks last s).trans rule) hchildren (toExpr_segmentBlocks reads last)
      ((rule_segmentBlocks _ thenBody).trans thenRule)
      (reads_children_segmentBlocks thenRule ihThen _)
      ((rule_segmentBlocks _ elseBody).trans elseRule)
      (reads_children_segmentBlocks elseRule ihElse _) (ih _)
  | @loop s test body rest e code after rule children reads bodyRule _ _ ihBody ih =>
    intro last
    have hchildren : (s.segmentBlocks last).1.children = [(test.segmentBlocks last).1,
        (body.segmentBlocks (test.segmentBlocks last).2).1] := by
      rw [children_segmentBlocks_of_ne (by rw [rule]; decide), children]
      rfl
    exact .loop ((rule_segmentBlocks last s).trans rule) hchildren (toExpr_segmentBlocks reads last)
      ((rule_segmentBlocks _ body).trans bodyRule)
      (reads_children_segmentBlocks bodyRule ihBody _) (ih _)

/-- **Forming basic blocks keeps the code that a tree reads as.** -/
theorem reads_segmentBlocks {n : Node} {code : List Code} (hrule : n.rule = .sequence)
    (h : Reads vars n.children code) (last : Nat) :
    Reads vars (n.segmentBlocks last).1.children code :=
  reads_children_segmentBlocks hrule (reads_segmentBlocksAll h) last

end Node

end BlockFlow
