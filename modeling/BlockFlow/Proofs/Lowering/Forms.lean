import BlockFlow.Graph.Lowering
import Mathlib.Data.List.Basic

/-!
# The forms of statements

Lowering tells trees by their rules and by how many children they have.  A statement is
straight-line code, which is a basic block or a single statement (`Node.straight?`), or a
conditional with a test and two bodies, or a loop with a test and a body; anything else is refused
(`Node.misfit?`).  A body is a sequence or refused.

What holds of these forms holds of all trees (`Node.lowering_induct`).
-/

namespace BlockFlow

open Lowering

variable {vars : List String} {n : Node}

namespace Node

/-- The statements of straight-line code: those of a basic block, or a single one. -/
def straight? (n : Node) : Option (List Node) :=
  match n.rule with
  | .basicBlock => some n.children
  | .assign | .ret => some [n]
  | _ => none

/-- Why a tree is no statement: for its rule, or for how many children it has. -/
def misfit? (n : Node) : Option LowerFault :=
  match n.rule with
  | .basicBlock | .assign | .ret => none
  | .cond => if n.children.length = 3 then none else some .malformedConditional
  | .loop => if n.children.length = 2 then none else some .malformedLoop
  | rule => some (.notInSequence rule)

end Node

namespace Lowering

theorem lowerStatement_of_straight {statements : List Node} (h : n.straight? = some statements)
    (tip : Tip) (g : Graph) :
    lowerStatement vars tip g n = lowerBlock vars tip g statements := by
  obtain ⟨id, rule, token, children⟩ := n
  cases rule <;> cases h <;> rfl

/-- **What is no statement is refused,** whatever the graph is. -/
theorem lowerStatement_of_misfit {fault : LowerFault} (h : n.misfit? = some fault) (tip : Tip)
    (g : Graph) : lowerStatement vars tip g n = .error (.atNode n fault) := by
  obtain ⟨id, rule, token, children⟩ := n
  cases rule with
  | cond =>
    by_cases hlength : children.length = 3
    · simp [Node.misfit?, hlength] at h
    · simp only [Node.misfit?, if_neg hlength, Option.some.injEq] at h
      rw [lowerStatement, h]
      rintro test thenBody elseBody rfl
      exact hlength rfl
  | loop =>
    by_cases hlength : children.length = 2
    · simp [Node.misfit?, hlength] at h
    · simp only [Node.misfit?, if_neg hlength, Option.some.injEq] at h
      rw [lowerStatement, h]
      rintro test body rfl
      exact hlength rfl
  | basicBlock | assign | ret => cases h
  | _ =>
    cases h
    rfl

theorem lowerBody_of_sequence (h : n.rule = .sequence) (tip : Tip) (g : Graph) :
    lowerBody vars tip g n = lowerSequence vars tip g n.children := by
  obtain ⟨id, rule, token, children⟩ := n
  cases h
  rw [lowerBody]

theorem lowerBody_of_ne (h : n.rule ≠ .sequence) (tip : Tip) (g : Graph) :
    lowerBody vars tip g n = .error (.atNode n (.bodyNotSequence n.rule)) := by
  obtain ⟨id, rule, token, children⟩ := n
  rw [lowerBody]
  exact h

end Lowering

namespace Node

/-- A tree is a statement of one of three forms, or no statement. -/
theorem forms (n : Node) : (∃ statements, n.straight? = some statements) ∨
    (∃ id token test thenBody elseBody, n = ⟨id, .cond, token, [test, thenBody, elseBody]⟩) ∨
    (∃ id token test body, n = ⟨id, .loop, token, [test, body]⟩) ∨
    ∃ fault, n.misfit? = some fault := by
  obtain ⟨id, rule, token, children⟩ := n
  cases rule with
  | basicBlock | assign | ret => exact .inl ⟨_, rfl⟩
  | cond =>
    by_cases hlength : children.length = 3
    · obtain ⟨test, thenBody, elseBody, rfl⟩ := List.length_eq_three.mp hlength
      exact .inr (.inl ⟨id, token, test, thenBody, elseBody, rfl⟩)
    · exact .inr (.inr (.inr ⟨_, if_neg hlength⟩))
  | loop =>
    by_cases hlength : children.length = 2
    · obtain ⟨test, body, rfl⟩ := List.length_eq_two.mp hlength
      exact .inr (.inr (.inl ⟨id, token, test, body, rfl⟩))
    · exact .inr (.inr (.inr ⟨_, if_neg hlength⟩))
  | _ => exact .inr (.inr (.inr ⟨_, rfl⟩))

/-- **Induction along lowering:** what is shown of statements form by form, of bodies and of
sequences holds of all trees. -/
theorem lowering_induct {S B : Node → Prop} {L : List Node → Prop}
    (straight : ∀ {n : Node} {statements : List Node}, n.straight? = some statements → S n)
    (cond : ∀ {id : Nat} {token : Option Token} {test thenBody elseBody : Node}, B thenBody →
      B elseBody → S ⟨id, .cond, token, [test, thenBody, elseBody]⟩)
    (loop : ∀ {id : Nat} {token : Option Token} {test body : Node}, B body →
      S ⟨id, .loop, token, [test, body]⟩)
    (misfit : ∀ {n : Node} {fault : LowerFault}, n.misfit? = some fault → S n)
    (body : ∀ {n : Node}, n.rule = .sequence → L n.children → B n)
    (noBody : ∀ {n : Node}, n.rule ≠ .sequence → B n) (nil : L [])
    (cons : ∀ {s : Node} {rest : List Node}, S s → L rest → L (s :: rest)) :
    (∀ n, S n) ∧ (∀ n, B n) ∧ ∀ nodes, L nodes := by
  have hlist : ∀ nodes : List Node, (∀ n ∈ nodes, S n) → L nodes := by
    intro nodes hnodes
    induction nodes with
    | nil => exact nil
    | cons s rest ih =>
      obtain ⟨hs, hrest⟩ := List.forall_mem_cons.mp hnodes
      exact cons hs (ih hrest)
  -- Bodies stand between a statement and those inside it, and are taken along to go level by level.
  have hall : ∀ n : Node, S n ∧ B n := by
    intro n
    induction n using induct with | node n ih
    constructor
    · rcases n.forms with ⟨statements, hstraight⟩ | ⟨id, token, test, thenBody, elseBody, rfl⟩ |
        ⟨id, token, test, inner, rfl⟩ | ⟨fault, hmisfit⟩
      · exact straight hstraight
      · exact cond (ih thenBody (by simp)).2 (ih elseBody (by simp)).2
      · exact loop (ih inner (by simp)).2
      · exact misfit hmisfit
    · by_cases hrule : n.rule = .sequence
      · exact body hrule (hlist n.children fun c hc => (ih c hc).1)
      · exact noBody hrule
  exact ⟨fun n => (hall n).1, fun n => (hall n).2, fun nodes => hlist nodes fun n _ => (hall n).1⟩

end Node

end BlockFlow
