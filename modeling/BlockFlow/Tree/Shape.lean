import BlockFlow.Tree.Passes

/-!
# The normal shape

What normalisation promises about a tree, as a check that names the first node that breaks it:

* the root and every body is a sequence, and sequences hold statements only;
* basic blocks stand directly in a sequence, are not empty, and hold assignments and returns only;
* no wrapper, no structural leaf and no expression without operator is left.

Nodes are checked in preorder.  A node is checked for itself before the nodes below it, and the
statements of a sequence are checked for their place before any of them is checked for itself.
-/

namespace BlockFlow

/-- How a node breaks the normal shape. -/
inductive ShapeFault where
  | rootNotSequence
  | notStatement
  | wrapperLeft
  | blockOutsideSequence
  | emptyBlock
  | notBlockStatement
  | badAssignment
  | badReturn
  | badConditional
  | badLoop
  | operandOnly
  | noiseLeft
deriving DecidableEq, Repr, Inhabited

namespace ShapeFault

/-- The wording of a fault. -/
def message : ShapeFault → String
  | rootNotSequence => "root is not a sequence"
  | notStatement => "not a statement inside a sequence"
  | wrapperLeft => "statement wrapper left after flattening"
  | blockOutsideSequence => "basic block outside a sequence"
  | emptyBlock => "empty basic block"
  | notBlockStatement => "only assignments and returns belong in a basic block"
  | badAssignment => "assignment needs a target and a value"
  | badReturn => "return needs exactly one value"
  | badConditional => "if needs a condition and two bodies"
  | badLoop => "while needs a condition and a body"
  | operandOnly => "operand-only rvalue left after flattening"
  | noiseLeft => "structural token left after noise removal"

end ShapeFault

/-- A node and how it breaks the normal shape. -/
structure ShapeError where
  /-- The node. -/
  node : Node
  /-- How it breaks the shape. -/
  fault : ShapeFault
deriving Repr, Inhabited

namespace ShapeError

/-- The full diagnostic. -/
def message (e : ShapeError) : String :=
  "node " ++ toString e.node.id ++ " (" ++ e.node.label ++ "): " ++ e.fault.message

end ShapeError

namespace Node

/-- The fault of one node, given its parent; the nodes below it are not looked into. -/
def shapeFault? (parent : Option Node) (n : Node) : Option ShapeError :=
  match n.rule with
  | .sequence =>
    (n.children.find? fun child => !child.rule.isStatement).map (⟨·, .notStatement⟩)
  | .wrapper => some ⟨n, .wrapperLeft⟩
  | .basicBlock =>
    if parent.all fun p => p.rule ≠ .sequence then some ⟨n, .blockOutsideSequence⟩
    else if n.children.isEmpty then some ⟨n, .emptyBlock⟩
    else (n.children.find? fun child => child.rule ≠ .assign ∧ child.rule ≠ .ret).map
      (⟨·, .notBlockStatement⟩)
  | .assign =>
    match n.children with
    | [target, _] => if target.isTerm .ident then none else some ⟨n, .badAssignment⟩
    | _ => some ⟨n, .badAssignment⟩
  | .ret => if n.children.length = 1 then none else some ⟨n, .badReturn⟩
  | .cond =>
    match n.children with
    | [_, first, second] =>
      if first.rule = .sequence ∧ second.rule = .sequence then none
      else some ⟨n, .badConditional⟩
    | _ => some ⟨n, .badConditional⟩
  | .loop =>
    match n.children with
    | [_, body] => if body.rule = .sequence then none else some ⟨n, .badLoop⟩
    | _ => some ⟨n, .badLoop⟩
  | .value => if n.isOperandOnly then some ⟨n, .operandOnly⟩ else none
  | .term => if n.isNoise then some ⟨n, .noiseLeft⟩ else none
  | .tail | .other _ => none

/-- The first fault of a tree, if its shape is not normal. -/
def checkShape (n : Node) : Option ShapeError :=
  if n.rule = .sequence then
    (n.visits (fun _ => true) none).findSome? fun (m, parent) => m.shapeFault? parent
  else some ⟨n, .rootNotSequence⟩

end Node

end BlockFlow
