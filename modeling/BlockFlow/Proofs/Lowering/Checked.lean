import BlockFlow.Proofs.Lowering.Operators

/-!
# Trees that pass the check can be lowered

The check of the shape and lowering look at a tree in two ways.  The check visits every node and
knows its parent; lowering follows the statements and never sees most of the nodes.  Here the check
is shown to ask for enough: where a tree passes it, lowering finds every statement in its place and
in its form, whatever the tree is made of.  What the check leaves open are the expressions.  So if
lowering gives up on such a tree, then at an expression of one of its statements, and for a fault of
that expression; and if all these expressions are plain, there is a graph
(`Graph.lower_of_checkShape`).

The traversal is done for any set of errors that holds those of the expressions
(`Lowering.failsOnly_lowering`).  That a block would have to be ended twice is let through
there; no tree leads to it (`Graph.safely_lower`).
-/

namespace BlockFlow

open Lowering

/-! ### Expressions of a tree -/

namespace Node

/-- The expression of a statement: the second child of an assignment, and the first one of a return,
a conditional or a loop. -/
def expression? (n : Node) : Option Node :=
  match n.rule with
  | .assign => n.children[1]?
  | .ret | .cond | .loop => n.children[0]?
  | _ => none

/-- The expressions of all statements of a tree, wherever they stand. -/
def expressions (n : Node) : List Node :=
  n.preorder.filterMap expression?

/-- A leaf of the source that is a name or a number. -/
def IsOperand (n : Node) : Prop :=
  n.isTerm .ident ∨ n.isTerm .number

/-- A leaf of the source that is an operator of the language. -/
def IsOperator (n : Node) : Prop :=
  n.isTerm .op ∧ ∀ t, n.token = some t → t.OperatorKnown

/-- An operand, or two operands with an operator between them, the latter two below a node of any
rule. -/
inductive IsPlain : Node → Prop where
  | operand {n : Node} (h : n.IsOperand) : IsPlain n
  | binary {n left middle operator right : Node} (rule_eq : n.rule = .value)
      (children_eq : n.children = [left, middle]) (middle_eq : middle.children = [operator, right])
      (left : left.IsOperand) (operator : operator.IsOperator) (right : right.IsOperand) : IsPlain n

end Node

/-- Faults of expressions: something is no expression or no operator, or an operator is not one of
the language. -/
def LowerFault.OfExpression : LowerFault → Prop
  | notExpression | notOperator | unknownOperator _ => True
  | _ => False

/-- Errors of expressions: a node has a fault of expressions, or a leaf has no token. -/
def LowerError.OfExpression : LowerError → Prop
  | atNode _ fault => fault.OfExpression
  | terminatedTwice _ => False
  | missingToken => True

/-! ### Errors that may occur -/

/-- If what is done fails, then with an error that has the property. -/
def FailsOnly {α : Type} (x : Except LowerError α) (C : LowerError → Prop) : Prop :=
  ∀ e, x = .error e → C e

namespace FailsOnly

variable {α β : Type} {x : Except LowerError α} {f : α → Except LowerError β}
  {C : LowerError → Prop}

theorem ok (a : α) : FailsOnly (.ok a) C :=
  nofun

theorem error {e : LowerError} (h : C e) : FailsOnly (.error e : Except LowerError α) C := by
  intro e' he'
  cases he'
  exact h

theorem bind (h : FailsOnly x C) (hf : ∀ a, FailsOnly (f a) C) : FailsOnly (x >>= f) C := by
  cases x with
  | error e => exact .error (h e rfl)
  | ok a => exact hf a

end FailsOnly

/-! ### Reading expressions -/

namespace Node

variable {vars : List String} {n child : Node}

theorem isTerm_iff {kind : Kind} :
    n.isTerm kind ↔ n.rule = .term ∧ ∃ t, n.token = some t ∧ t.kind = kind := by
  simp [isTerm, kind?]

/-- All names in the tree are among the given variables. -/
def Named (vars : List String) (n : Node) : Prop :=
  ∀ t ∈ n.leaves, t.NameIn vars

theorem Named.of_mem (h : n.Named vars) (hchild : child ∈ n.children) : child.Named vars := by
  intro t ht
  refine h t ?_
  obtain ⟨id, rule, token, children⟩ := n
  rw [leaves_mk, List.mem_append]
  exact .inr (List.mem_flatMap.mpr ⟨child, hchild, ht⟩)

theorem Named.of_mem_preorder : ∀ {n m : Node}, n.Named vars → m ∈ n.preorder → m.Named vars
  | ⟨id, rule, token, children⟩, m, h, hm => by
    rw [preorder_mk] at hm
    rcases List.mem_cons.mp hm with rfl | hm
    · exact h
    · obtain ⟨child, hchild, hm⟩ := List.mem_flatMap.mp hm
      exact (h.of_mem hchild).of_mem_preorder hm

/-- The expressions of a tree have no other names than the tree. -/
theorem Named.of_mem_expressions {x : Node} (h : n.Named vars) (hx : x ∈ n.expressions) :
    x.Named vars := by
  obtain ⟨m, hm, hx⟩ := List.mem_filterMap.mp hx
  have hchild : x ∈ m.children := by
    unfold expression? at hx
    split at hx
    · exact List.mem_of_getElem? hx
    · exact List.mem_of_getElem? hx
    · exact List.mem_of_getElem? hx
    · exact List.mem_of_getElem? hx
    · cases hx
  exact (h.of_mem_preorder hm).of_mem hchild

/-- The leaf of a name is the variable of that name. -/
theorem Named.exists_toVariable (h : n.Named vars) (hterm : n.isTerm .ident) :
    ∃ name, n.toVariable vars = .ok name := by
  obtain ⟨hrule, ⟨lexeme, span⟩, htoken, hkind⟩ := isTerm_iff.mp hterm
  cases lexeme with
  | ident name =>
    have hleaf : ⟨.ident name, span⟩ ∈ n.leaves := by
      obtain ⟨id, rule, token, children⟩ := n
      cases hrule
      cases htoken
      simp [leaves_mk]
    have hname : name ∈ vars := h _ hleaf name rfl
    exact ⟨name, by simp only [toVariable, htoken, if_pos hname]⟩
  | _ => cases hkind

/-- **Reading an expression fails for faults of expressions only,** if the variables are given. -/
theorem Named.failsOnly_toExpr (h : n.Named vars) :
    FailsOnly (n.toExpr vars) LowerError.OfExpression := by
  fun_induction toExpr vars n with
  | case1 => exact .error trivial
  | case2 id children span name n =>
    obtain ⟨name, hname⟩ := h.exists_toVariable rfl
    rw [hname]
    exact .ok _
  | case3 => exact .ok _
  | case4 => exact .error trivial
  | case5 _ _ left _ _ _ operator right ihLeft ihRight =>
    have hoperator : FailsOnly operator.toOp LowerError.OfExpression := by
      unfold toOp
      split
      · split
        · exact .ok _
        · exact .error trivial
      · exact .error trivial
    have hmiddle := h.of_mem (List.mem_cons_of_mem left (List.mem_singleton.mpr rfl))
    have hright := hmiddle.of_mem (List.mem_cons_of_mem operator (List.mem_singleton.mpr rfl))
    refine (ihLeft (h.of_mem List.mem_cons_self)).bind fun l => hoperator.bind fun op => ?_
    exact (ihRight hright).bind fun r => .ok _
  | case6 _ _ operand _ _ _ ih => exact ih (h.of_mem List.mem_cons_self)
  | case7 => exact .error trivial

/-- An operand reads as an expression, whatever stands below it. -/
theorem IsOperand.exists_toExpr (h : n.IsOperand) (hnamed : n.Named vars) :
    ∃ e, n.toExpr vars = .ok e := by
  rcases h with h | h
  · obtain ⟨name, hname⟩ := hnamed.exists_toVariable h
    obtain ⟨hrule, ⟨lexeme, span⟩, htoken, hkind⟩ := isTerm_iff.mp h
    obtain ⟨id, rule, token, children⟩ := n
    cases hrule
    cases htoken
    cases lexeme with
    | ident => exact ⟨.load name, by rw [toExpr, hname]; rfl⟩
    | _ => cases hkind
  · obtain ⟨hrule, ⟨lexeme, span⟩, htoken, hkind⟩ := isTerm_iff.mp h
    obtain ⟨id, rule, token, children⟩ := n
    cases hrule
    cases htoken
    cases lexeme with
    | number value => exact ⟨.const value, by rw [toExpr]⟩
    | _ => cases hkind

theorem IsOperator.exists_toOp (h : n.IsOperator) : ∃ op, n.toOp = .ok op := by
  obtain ⟨hrule, ⟨lexeme, span⟩, htoken, hkind⟩ := isTerm_iff.mp h.1
  cases lexeme with
  | op symbol =>
    obtain ⟨op, hop⟩ := Op.isSome_ofSymbol? (h.2 _ htoken symbol rfl)
    exact ⟨op, by simp only [toOp, hrule, htoken, hop]⟩
  | _ => cases hkind

/-- **A plain expression can be read.** -/
theorem IsPlain.exists_toExpr (h : n.IsPlain) (hnamed : n.Named vars) :
    ∃ e, n.toExpr vars = .ok e := by
  cases h with
  | operand h => exact h.exists_toExpr hnamed
  | @binary left middle operator right rule_eq children_eq middle_eq hleft hoperator hright =>
    have hmiddle : middle.Named vars := hnamed.of_mem (by simp [children_eq])
    obtain ⟨l, hl⟩ := hleft.exists_toExpr (hnamed.of_mem (by simp [children_eq]))
    obtain ⟨op, hop⟩ := hoperator.exists_toOp
    obtain ⟨r, hr⟩ := hright.exists_toExpr (hmiddle.of_mem (by simp [middle_eq]))
    exact ⟨_, toExpr_binary rule_eq children_eq middle_eq hl hop hr⟩

/-! ### What the check says of a node -/

section Shape

variable {parent : Option Node}

theorem visitsAll_eq_flatMap (enters : Node → Bool) (parent : Node) (children : List Node) :
    visitsAll enters parent children = children.flatMap (visits enters (some parent)) := by
  induction children with
  | nil => rfl
  | cons child rest ih => rw [visitsAll, ih, List.flatMap_cons]

/-- The root of a sound tree has no fault. -/
theorem Sound.root (h : n.Sound parent) : n.shapeFault? parent = none := by
  obtain ⟨id, rule, token, children⟩ := n
  exact h (_, parent) (by rw [visits]; exact List.mem_cons_self)

/-- The children of a sound tree are sound. -/
theorem Sound.of_mem (h : n.Sound parent) (hchild : child ∈ n.children) : child.Sound (some n) := by
  intro place hplace
  refine h place ?_
  obtain ⟨id, rule, token, children⟩ := n
  rw [visits, if_pos rfl, visitsAll_eq_flatMap]
  exact List.mem_cons_of_mem _ (List.mem_flatMap.mpr ⟨child, hchild, hplace⟩)

variable (h : n.shapeFault? parent = none)

include h

theorem isStatement_of_sequence (hrule : n.rule = .sequence) (hchild : child ∈ n.children) :
    child.rule.isStatement := by
  simp only [shapeFault?, hrule, Option.map_eq_none_iff, List.find?_eq_none] at h
  simpa using h child hchild

theorem rule_of_basicBlock (hrule : n.rule = .basicBlock) (hchild : child ∈ n.children) :
    child.rule = .assign ∨ child.rule = .ret := by
  simp only [shapeFault?, hrule] at h
  split at h
  · cases h
  · split at h
    · cases h
    · rw [Option.map_eq_none_iff, List.find?_eq_none] at h
      have hnot := h child hchild
      by_cases hassign : child.rule = .assign
      · exact .inl hassign
      · exact .inr (by simpa [hassign] using hnot)

theorem children_of_assign (hrule : n.rule = .assign) :
    ∃ target value, n.children = [target, value] ∧ target.isTerm .ident := by
  simp only [shapeFault?, hrule] at h
  split at h
  · rename_i target value hchildren
    split at h
    · rename_i hterm
      exact ⟨target, value, hchildren, hterm⟩
    · cases h
  · cases h

theorem children_of_ret (hrule : n.rule = .ret) : ∃ value, n.children = [value] := by
  simp only [shapeFault?, hrule] at h
  split at h
  · rename_i hlength
    exact List.length_eq_one_iff.mp hlength
  · cases h

theorem children_of_cond (hrule : n.rule = .cond) : ∃ test thenBody elseBody,
    n.children = [test, thenBody, elseBody] ∧ thenBody.rule = .sequence ∧
      elseBody.rule = .sequence := by
  simp only [shapeFault?, hrule] at h
  split at h
  · rename_i test thenBody elseBody hchildren
    split at h
    · rename_i hbodies
      exact ⟨test, thenBody, elseBody, hchildren, hbodies⟩
    · cases h
  · cases h

theorem children_of_loop (hrule : n.rule = .loop) :
    ∃ test body, n.children = [test, body] ∧ body.rule = .sequence := by
  simp only [shapeFault?, hrule] at h
  split at h
  · rename_i test body hchildren
    split at h
    · rename_i hbody
      exact ⟨test, body, hchildren, hbody⟩
    · cases h
  · cases h

end Shape

/-- A tree that passes the check is a sound sequence. -/
theorem sound_of_checkShape (h : n.checkShape = none) : n.rule = .sequence ∧ n.Sound none := by
  unfold checkShape at h
  split at h
  · rename_i hrule
    exact ⟨hrule, List.findSome?_eq_none_iff.mp h⟩
  · cases h

end Node

/-! ### Lowering -/

namespace Lowering

variable {vars : List String} {C : LowerError → Prop}

/-- A tree that passes the check, whose names are given, and whose expressions fail with certain
errors only. -/
structure Checked (vars : List String) (C : LowerError → Prop) (parent : Option Node) (n : Node) :
    Prop where
  sound : n.Sound parent
  named : n.Named vars
  reads : ∀ x ∈ n.expressions, FailsOnly (x.toExpr vars) C

namespace Checked

variable {parent : Option Node} {n child x : Node}

theorem of_mem (h : Checked vars C parent n) (hchild : child ∈ n.children) :
    Checked vars C (some n) child := by
  refine ⟨h.sound.of_mem hchild, h.named.of_mem hchild, fun x hx => h.reads x ?_⟩
  obtain ⟨id, rule, token, children⟩ := n
  obtain ⟨m, hm, hx⟩ := List.mem_filterMap.mp hx
  refine List.mem_filterMap.mpr ⟨m, ?_, hx⟩
  rw [Node.preorder_mk]
  exact List.mem_cons_of_mem _ (List.mem_flatMap.mpr ⟨child, hchild, hm⟩)

/-- The expression of the statement at the root. -/
theorem failsOnly_toExpr (h : Checked vars C parent n) (hx : n.expression? = some x) :
    FailsOnly (x.toExpr vars) C := by
  refine h.reads x (List.mem_filterMap.mpr ⟨n, ?_, hx⟩)
  obtain ⟨id, rule, token, children⟩ := n
  rw [Node.preorder_mk]
  exact List.mem_cons_self

end Checked

section Steps

variable (hC : ∀ block, C (.terminatedTwice block))

include hC

theorem failsOnly_terminate (g : Graph) (i : Nat) (t : Terminator) :
    FailsOnly (g.terminate i t) C := by
  unfold Graph.terminate
  split
  · exact .error (hC _)
  · exact .ok _

theorem failsOnly_join (g : Graph) (tip : Option Tip) (target : Nat) :
    FailsOnly (join g tip target) C := by
  cases tip with
  | none => exact .ok _
  | some tip => exact failsOnly_terminate hC g tip.block _

/-- Assignments and returns are found in their form. -/
theorem failsOnly_fillBlock (i : Nat) (statements : List Node) :
    ∀ {g : Graph}, (∀ s ∈ statements, (∃ parent, Checked vars C parent s) ∧
      (s.rule = .assign ∨ s.rule = .ret)) → FailsOnly (fillBlock vars i g statements) C := by
  induction statements with
  | nil => exact fun _ => .ok _
  | cons s rest ih =>
    intro g hall
    obtain ⟨⟨⟨parent, hs⟩, hrule⟩, hrest⟩ := List.forall_mem_cons.mp hall
    rw [fillBlock]
    rcases hrule with hrule | hrule
    · obtain ⟨target, value, hchildren, hterm⟩ := Node.children_of_assign hs.sound.root hrule
      have hvalue := hs.failsOnly_toExpr (x := value) (by simp [Node.expression?, hrule, hchildren])
      obtain ⟨name, hname⟩ := (hs.named.of_mem (by simp [hchildren])).exists_toVariable hterm
      simp only [hrule, hchildren, hterm, if_true, hname]
      exact hvalue.bind fun e => ih hrest
    · obtain ⟨value, hchildren⟩ := Node.children_of_ret hs.sound.root hrule
      have hvalue := hs.failsOnly_toExpr (x := value) (by simp [Node.expression?, hrule, hchildren])
      simp only [hrule, hchildren]
      exact hvalue.bind fun e => (failsOnly_terminate hC _ _ _).bind fun g' => .ok _

theorem failsOnly_lowerBlock (tip : Tip) (g : Graph) {statements : List Node}
    (h : ∀ s ∈ statements, (∃ parent, Checked vars C parent s) ∧
      (s.rule = .assign ∨ s.rule = .ret)) : FailsOnly (lowerBlock vars tip g statements) C := by
  have hopen : FailsOnly (openBlock g tip) C := by
    unfold openBlock
    split
    · exact .ok _
    · exact (failsOnly_terminate hC _ _ _).bind fun g' => .ok _
  exact hopen.bind fun result => failsOnly_fillBlock hC result.1 statements h

end Steps

/-- Straight-line code that was checked is made of assignments and returns that were. -/
theorem Checked.of_straight {n : Node} {parent : Option Node} (h : Checked vars C parent n)
    {statements : List Node} (hstraight : n.straight? = some statements) :
    ∀ s ∈ statements, (∃ parent, Checked vars C parent s) ∧ (s.rule = .assign ∨ s.rule = .ret) := by
  intro s hs
  unfold Node.straight? at hstraight
  split at hstraight
  · rename_i hrule
    cases hstraight
    exact ⟨⟨_, h.of_mem hs⟩, Node.rule_of_basicBlock h.sound.root hrule hs⟩
  · rename_i hrule
    cases hstraight
    obtain rfl := List.mem_singleton.mp hs
    exact ⟨⟨parent, h⟩, .inl hrule⟩
  · rename_i hrule
    cases hstraight
    obtain rfl := List.mem_singleton.mp hs
    exact ⟨⟨parent, h⟩, .inr hrule⟩
  · cases hstraight

/-- A statement that was checked is none that lowering refuses. -/
theorem Checked.misfit?_eq_none {n : Node} {parent : Option Node} (h : Checked vars C parent n)
    (hstatement : n.rule.isStatement) : n.misfit? = none := by
  unfold Node.misfit?
  cases hrule : n.rule with
  | basicBlock | assign | ret => rfl
  | cond =>
    obtain ⟨_, _, _, hchildren, -⟩ := Node.children_of_cond h.sound.root hrule
    rw [hchildren]
    rfl
  | loop =>
    obtain ⟨_, _, hchildren, -⟩ := Node.children_of_loop h.sound.root hrule
    rw [hchildren]
    rfl
  | _ =>
    -- The other rules are not those of statements.
    rw [hrule] at hstatement
    cases hstatement

/-- **Statements are found in their form:** if lowering them fails, then with an error that one of
their expressions fails with. -/
theorem failsOnly_lowering (hC : ∀ block, C (.terminatedTwice block)) :
    (∀ n : Node, ∀ parent, Checked vars C parent n → n.rule.isStatement →
      ∀ (tip : Tip) (g : Graph), FailsOnly (lowerStatement vars tip g n) C) ∧
    (∀ n : Node, ∀ parent, Checked vars C parent n → n.rule = .sequence →
      ∀ (tip : Tip) (g : Graph), FailsOnly (lowerBody vars tip g n) C) ∧
    ∀ nodes : List Node, (∀ n ∈ nodes, (∃ parent, Checked vars C parent n) ∧ n.rule.isStatement) →
      ∀ (tip : Tip) (g : Graph), FailsOnly (lowerSequence vars tip g nodes) C := by
  refine Node.lowering_induct ?straight ?cond ?loop ?misfit ?body ?noBody ?nil ?cons
  case straight =>
    intro n statements hstraight parent h _ tip g
    rw [lowerStatement_of_straight hstraight]
    exact failsOnly_lowerBlock hC tip g (h.of_straight hstraight)
  case cond =>
    intro id token test thenBody elseBody hthenBody helseBody parent h _ tip g
    have htest := h.failsOnly_toExpr (x := test) rfl
    obtain ⟨_, _, _, hchildren, hthen, helse⟩ := Node.children_of_cond h.sound.root rfl
    cases hchildren
    have hthenBody := hthenBody _ (h.of_mem (by simp)) hthen
    have helseBody := helseBody _ (h.of_mem (by simp)) helse
    rw [lowerStatement]
    refine (failsOnly_terminate hC _ _ _).bind fun g₁ => htest.bind fun e => ?_
    refine (failsOnly_terminate hC _ _ _).bind fun g₂ => (hthenBody _ _).bind fun r₃ => ?_
    refine (helseBody _ _).bind fun r₄ => (failsOnly_join hC _ _ _).bind fun g₅ => ?_
    exact (failsOnly_join hC _ _ _).bind fun g₆ => .ok _
  case loop =>
    intro id token test body hbody parent h _ tip g
    have htest := h.failsOnly_toExpr (x := test) rfl
    obtain ⟨_, _, hchildren, hrule⟩ := Node.children_of_loop h.sound.root rfl
    cases hchildren
    have hbody := hbody _ (h.of_mem (by simp)) hrule
    rw [lowerStatement]
    refine (failsOnly_terminate hC _ _ _).bind fun g₁ => htest.bind fun e => ?_
    refine (failsOnly_terminate hC _ _ _).bind fun g₂ => (hbody _ _).bind fun r₃ => ?_
    exact (failsOnly_join hC _ _ _).bind fun g₄ => .ok _
  case misfit =>
    intro n fault hmisfit parent h hstatement
    rw [h.misfit?_eq_none hstatement] at hmisfit
    cases hmisfit
  case body =>
    intro n hrule hsequence parent h _ tip g
    rw [lowerBody_of_sequence hrule]
    exact hsequence (fun s hs =>
      ⟨⟨_, h.of_mem hs⟩, Node.isStatement_of_sequence h.sound.root hrule hs⟩) tip g
  case noBody =>
    intro n hrule parent _ hsequence
    exact absurd hsequence hrule
  case nil =>
    intro _ tip g
    rw [lowerSequence]
    exact .ok _
  case cons =>
    intro s rest hs hrest h tip g
    obtain ⟨⟨⟨parent, hchecked⟩, hstatement⟩, hothers⟩ := List.forall_mem_cons.mp h
    rw [lowerSequence]
    refine (hs parent hchecked hstatement tip g).bind fun result => ?_
    obtain ⟨tip', g'⟩ := result
    cases tip' with
    | none => exact .ok _
    | some tip' => exact hrest hothers tip' g'

end Lowering

namespace Graph

/-- **The check of the shape asks for enough.**  Take any tree that passes it, and variables among
which are all names of the tree.  If the tree cannot be lowered, then because one of its expressions
cannot be read: lowering fails with the error of this expression, which says that something is no
expression or no operator of the language, or that a leaf has no token.  If all expressions of the
tree are plain, there is a graph. -/
theorem lower_of_checkShape {root : Node} {vars : List String} (hshape : root.checkShape = none)
    (hvars : ∀ name ∈ root.names, name ∈ vars) :
    (∀ e, lower vars root = .error e →
      e.OfExpression ∧ ∃ x ∈ root.expressions, x.toExpr vars = .error e) ∧
    ((∀ x ∈ root.expressions, x.IsPlain) → ∃ g, lower vars root = .ok g) := by
  obtain ⟨hrule, hsound⟩ := Node.sound_of_checkShape hshape
  have hnamed : root.Named vars := fun t ht name hname =>
    hvars name (Node.mem_names_iff.mpr ⟨t, ht, hname⟩)
  have hfails : ∀ e, lower vars root = .error e →
      ∃ x ∈ root.expressions, x.toExpr vars = .error e := by
    let C : LowerError → Prop := fun e =>
      (∃ block, e = .terminatedTwice block) ∨ ∃ x ∈ root.expressions, x.toExpr vars = .error e
    have hchecked : Checked vars C none root :=
      ⟨hsound, hnamed, fun x hx e he => .inr ⟨x, hx, he⟩⟩
    have hlower : FailsOnly (lower vars root) C := by
      rw [lower, if_pos hrule]
      refine ((failsOnly_lowering fun block => .inl ⟨block, rfl⟩).2.2 root.children (fun s hs =>
        ⟨⟨_, hchecked.of_mem hs⟩, Node.isStatement_of_sequence hsound.root hrule hs⟩) _ _).bind ?_
      exact fun result => .ok _
    intro e he
    rcases hlower e he with ⟨block, rfl⟩ | hexpression
    · -- No tree makes lowering end a block twice.
      have hsafely := safely_lower vars root
      rw [he] at hsafely
      exact absurd rfl (hsafely block)
    · exact hexpression
  refine ⟨fun e he => ?_, fun hplain => ?_⟩
  · obtain ⟨x, hx, hread⟩ := hfails e he
    exact ⟨(hnamed.of_mem_expressions hx).failsOnly_toExpr e hread, x, hx, hread⟩
  · cases hlower : lower vars root with
    | ok g => exact ⟨g, rfl⟩
    | error e =>
      obtain ⟨x, hx, hread⟩ := hfails e hlower
      obtain ⟨value, hvalue⟩ := (hplain x hx).exists_toExpr (hnamed.of_mem_expressions hx)
      rw [hvalue] at hread
      cases hread

/-- The tree of `if x < 2 { y = x; } else { return` … `; }` with a given tree for what is
returned. -/
def choosing (result : Node) : Node :=
  let leaf (lexeme : Lexeme) : Node := ⟨0, .term, some ⟨lexeme, {}⟩, []⟩
  let test : Node :=
    ⟨0, .value, none, [leaf (.ident "x"), ⟨0, .tail, none, [leaf (.op '<'), leaf (.number 2)]⟩]⟩
  let body (statement : Node) : Node :=
    ⟨0, .sequence, none, [⟨0, .basicBlock, none, [statement]⟩]⟩
  ⟨0, .sequence, none,
    [⟨0, .cond, none,
      [test, body ⟨0, .assign, none, [leaf (.ident "y"), leaf (.ident "x")]⟩,
        body ⟨0, .ret, none, [result]⟩]⟩]⟩

/-- With a leaf that has no token as its result the tree passes the check, and lowering fails at
this leaf; with a number as its result all expressions are plain, and there is a graph. -/
theorem lower_choosing :
    lower ["x", "y"] (choosing ⟨0, .term, none, []⟩) = .error .missingToken ∧
    (∃ x ∈ (choosing ⟨0, .term, none, []⟩).expressions,
      x.toExpr ["x", "y"] = .error .missingToken) ∧
    ∃ g, lower ["x", "y"] (choosing ⟨0, .term, some ⟨.number 1, {}⟩, []⟩) = .ok g := by
  have hfails : lower ["x", "y"] (choosing ⟨0, .term, none, []⟩) = .error .missingToken := rfl
  refine ⟨hfails, ?_, ?_⟩
  · have hshape : (choosing ⟨0, .term, none, []⟩).checkShape = none := rfl
    exact ((lower_of_checkShape hshape (by decide)).1 _ hfails).2
  · refine (lower_of_checkShape rfl (by decide)).2 fun x hx => ?_
    have hless : ∀ t, some (⟨.op '<', {}⟩ : Token) = some t → t.OperatorKnown := by
      rintro t ht symbol hsymbol
      cases ht
      cases hsymbol
      decide
    rcases hx with _ | ⟨_, _ | ⟨_, _ | ⟨_, hx⟩⟩⟩
    · exact .binary rfl rfl rfl (.inl rfl) ⟨rfl, hless⟩ (.inr rfl)
    · exact .operand (.inl rfl)
    · exact .operand (.inr rfl)
    · cases hx

end Graph

end BlockFlow
