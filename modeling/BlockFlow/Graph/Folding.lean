import BlockFlow.Graph.Basic

/-!
# Constant folding

Folding replaces every operation on constants by its value, from the inside out, in all stores,
conditions and returns of a graph.  An operation that has no value, such as a division by zero, is
left for the machine to report.  Nothing else about the graph changes.
-/

namespace BlockFlow

namespace Expr

/-- Applies an operator to folded operands: the expression, and how many operations were
replaced. -/
def foldBinary (op : Op) (left right : Expr) : Expr × Nat :=
  match left, right with
  | const l, const r =>
    match op.eval l r with
    | some value => (const value, 1)
    | none => (binary op left right, 0)
  | _, _ => (binary op left right, 0)

/-- Folds an expression, and counts the operations that were replaced. -/
def fold : Expr → Expr × Nat
  | binary op left right =>
    let (foldedLeft, leftCount) := left.fold
    let (foldedRight, rightCount) := right.fold
    let (folded, count) := foldBinary op foldedLeft foldedRight
    (folded, leftCount + rightCount + count)
  | e => (e, 0)

end Expr

namespace Terminator

/-- Folds the expression of a terminator. -/
def fold : Terminator → Terminator × Nat
  | branch cond onTrue onFalse => (branch cond.fold.1 onTrue onFalse, cond.fold.2)
  | ret value => (ret value.fold.1, value.fold.2)
  | t => (t, 0)

end Terminator

namespace Block

/-- The block with all its expressions folded. -/
def folded (b : Block) : Block :=
  { b with
    stores := b.stores.map fun s => ⟨s.name, s.value.fold.1⟩
    term := b.term.map fun t => t.fold.1 }

/-- How many operations of a block are replaced. -/
def foldCount (b : Block) : Nat :=
  (b.stores.map fun s => s.value.fold.2).foldr (· + ·) 0 + (b.term.map fun t => t.fold.2).getD 0

end Block

namespace Graph

/-- The graph with all its expressions folded. -/
def folded (g : Graph) : Graph :=
  { g with blocks := g.blocks.map Block.folded }

/-- How many operations of a graph are replaced. -/
def foldCount (g : Graph) : Nat :=
  (g.blocks.toList.map Block.foldCount).foldr (· + ·) 0

end Graph

end BlockFlow
