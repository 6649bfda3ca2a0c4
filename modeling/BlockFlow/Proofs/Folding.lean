import BlockFlow.Graph.Folding
import BlockFlow.Proofs.Evaluation

/-!
# Folding keeps what a program does

A folded expression has the value, or the error, of the expression it was made from, whatever the
variables hold (`Expr.evaluate_fold`): an operation is replaced only where its operands are
constants and it has a value.  So a folded block has the effect of the block it was made from, and a
machine for a folded graph cannot be told from a machine for the graph itself, however often and
under whatever limits and cancellations the two are run (`Graph.reports_folded`).
-/

namespace BlockFlow

/-! ### Expressions -/

namespace Expr

variable (read : String → Except EvalError Int64)

/-- Folding one operation leaves its value, or its error, as it was. -/
theorem evaluate_foldBinary (op : Op) (left right : Expr) :
    (foldBinary op left right).1.evaluate read = (binary op left right).evaluate read := by
  unfold foldBinary
  split
  · rename_i l r
    cases hv : op.eval l r with
    | some value => simp [evaluate, hv]
    | none => rfl
  · rfl

/-- **Folding leaves the value of an expression as it was,** and its error if it has none. -/
theorem evaluate_fold (e : Expr) : e.fold.1.evaluate read = e.evaluate read := by
  induction e with
  | const value => rfl
  | load name => rfl
  | binary op left right ihl ihr =>
    have hfold : (binary op left right).fold.1 = (foldBinary op left.fold.1 right.fold.1).1 := rfl
    rw [hfold, evaluate_foldBinary, evaluate, ihl, ihr, evaluate]
  | absent => rfl

end Expr

/-! ### Blocks and graphs -/

namespace Machine

theorem storeAll_fold (slots : List (String × Nat)) (stores : List Store) (vars : Array Int64) :
    storeAll slots (stores.map fun s => ⟨s.name, s.value.fold.1⟩) vars =
      storeAll slots stores vars := by
  induction stores generalizing vars with
  | nil => rfl
  | cons store rest ih => simp only [List.map_cons, storeAll, Expr.evaluate_fold, ih]

theorem transferOf_fold (read : String → Except EvalError Int64) (t : Option Terminator) :
    transferOf read (t.map fun t => t.fold.1) = transferOf read t := by
  rcases t with _ | (target | ⟨cond, onTrue, onFalse⟩ | value | name)
  · rfl
  · rfl
  · simp only [Option.map_some, Terminator.fold, transferOf, Expr.evaluate_fold]
  · simp only [Option.map_some, Terminator.fold, transferOf, Expr.evaluate_fold]
  · rfl

end Machine

theorem Block.alike_folded (b : Block) : b.Alike b.folded where
  name_eq := rfl
  effect_eq slots vars := by
    simp only [Machine.effect, Block.folded, Machine.storeAll_fold, Machine.transferOf_fold]

namespace Graph

theorem alike_folded (g : Graph) : g.Alike g.folded where
  vars_eq := rfl
  size_eq := by simp only [folded, Array.size_map]
  alike i b hb := ⟨b.folded, by simp [folded, hb], b.alike_folded⟩

/-- **Folding cannot be observed.**  For every graph, limit and inputs, and however often a machine
is run and its runs are cancelled, the runs of the folded graph report what the runs of the graph
itself report: the same value or the same error in the same block, a crash or no end where the other
has one, the same count and the same variables. -/
theorem reports_folded (g : Graph) (limit : Int) (inputs : Inputs)
    (runs : List (Nat × Machine.Polls)) :
    (Machine.new g.folded limit inputs).reports runs = (Machine.new g limit inputs).reports runs :=
  (Machine.Twin.new g.alike_folded limit inputs).reports runs

end Graph

end BlockFlow
