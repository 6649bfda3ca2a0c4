import BlockFlow.Graph.Lowering
import BlockFlow.Proofs.Evaluation
import BlockFlow.Proofs.Meaning

/-!
# Code, blocks and points

Between statements and graphs stands *code*: structured like statements, but with the expressions of
graphs.  It is executed the way statements are (`Code.step`).

A graph can be executed block by block (`Graph.blockStep`), which is what the machine does, or more
finely: a *point* is a place inside a block, in front of one of its stores or in front of its
terminator, and `Graph.pointStep` executes just that.  Both ways end alike
(`Graph.ends_blockStep_iff`).  Points are what code can be compared with, since several statements
share a block.
-/

namespace BlockFlow

namespace Expr

/-- The value of an expression when every variable can be read. -/
def valueIn (env : Env) (e : Expr) : Except EvalError Int64 :=
  e.evaluate fun name => .ok (env name)

end Expr

namespace Progress

/-- Renames the state that a step leads to. -/
def map {α β : Type} (f : α → β) : Progress α → Progress β
  | going state env => going (f state) env
  | ended ending env => ended ending env

theorem map_withValue {α β : Type} (f : α → β) (result : Except EvalError Int64) (env : Env)
    (next : Int64 → Progress α) :
    (withValue result env next).map f = withValue result env fun v => (next v).map f := by
  cases result <;> rfl

end Progress

open Progress

/-! ### Code -/

/-- A statement over the expressions of graphs. -/
inductive Code where
  /-- Gives a variable a value. -/
  | store (name : String) (value : Expr)
  /-- Ends the program with a value. -/
  | ret (value : Expr)
  /-- Executes one of two pieces of code. -/
  | cond (test : Expr) (thenBody elseBody : List Code)
  /-- Executes code as long as a test holds. -/
  | loop (test : Expr) (body : List Code)

namespace Code

/-- Executes the first piece of the code that is still to be executed. -/
def step : List Code → Env → Progress (List Code)
  | [], env => .ended (.finished 0) env
  | .store name e :: rest, env =>
    withValue (e.valueIn env) env fun v => .going rest (Function.update env name v)
  | .ret e :: _, env => withValue (e.valueIn env) env fun v => .ended (.finished v) env
  | .cond test thenBody elseBody :: rest, env =>
    withValue (test.valueIn env) env fun v =>
      .going ((if 0 < v then thenBody else elseBody) ++ rest) env
  | .loop test body :: rest, env =>
    withValue (test.valueIn env) env fun v =>
      .going (if 0 < v then body ++ .loop test body :: rest else rest) env

end Code

/-! ### Blocks and points -/

/-- What a block executes: its stores, then its terminator. -/
abbrev Body := List Store × Option Terminator

namespace Graph

/-- What the block that has a number executes. -/
def body? (g : Graph) (i : Nat) : Option Body :=
  g.blocks[i]?.map fun b => (b.stores, b.term)

end Graph

/-- Where a terminator leads. -/
def exitStep : Option Terminator → Env → Progress Nat
  | none, env => .ended (.finished 0) env
  | some (.ret e), env => withValue (e.valueIn env) env fun v => .ended (.finished v) env
  | some (.jump target), env => .going target env
  | some (.branch test onTrue onFalse), env =>
    withValue (test.valueIn env) env fun v => .going (if 0 < v then onTrue else onFalse) env
  | some (.other name), env => .ended (.failed (.unknownTerminator name)) env

/-- Carries out stores and then a terminator. -/
def bodyStep : List Store → Option Terminator → Env → Progress Nat
  | [], term, env => exitStep term env
  | s :: rest, term, env =>
    withValue (s.value.valueIn env) env fun v => bodyStep rest term (Function.update env s.name v)

/-- A place in a graph: in front of a store of a block, counted from zero, or behind all of them. -/
structure Point where
  /-- The number of the block. -/
  block : Nat
  /-- How many of its stores were executed. -/
  index : Nat
deriving DecidableEq, Repr, Inhabited

namespace Point

/-- The first point of a block. -/
def start (block : Nat) : Point := ⟨block, 0⟩

/-- The point behind a store. -/
def next (p : Point) : Point := ⟨p.block, p.index + 1⟩

end Point

namespace Graph

/-- Executes a block. -/
def blockStep (g : Graph) (i : Nat) (env : Env) : Progress Nat :=
  match g.body? i with
  | some (stores, term) => bodyStep stores term env
  | none => .ended (.failed .outOfBounds) env

/-- Executes the store or the terminator behind a point. -/
def pointStep (g : Graph) (p : Point) (env : Env) : Progress Point :=
  match g.body? p.block with
  | some (stores, term) =>
    match stores[p.index]? with
    | some s =>
      withValue (s.value.valueIn env) env fun v => .going p.next (Function.update env s.name v)
    | none => (exitStep term env).map Point.start
  | none => .ended (.failed .outOfBounds) env

variable {g : Graph}

/-- From a point, executing the rest of the block one thing at a time does what the block does. -/
theorem answered_bodyStep {i : Nat} {stores : List Store} {term : Option Terminator}
    (hbody : g.body? i = some (stores, term)) :
    ∀ (rest : List Store) (k : Nat) (env : Env), stores.drop k = rest →
      Answered g.pointStep (fun b p => p = .start b) ⟨i, k⟩ env (bodyStep rest term env) := by
  intro rest
  induction rest with
  | nil =>
    intro k env hrest
    have hstep : g.pointStep ⟨i, k⟩ env = (exitStep term env).map Point.start := by
      have hnone : stores[k]? = none := by
        rw [List.getElem?_eq_none_iff]
        exact List.drop_eq_nil_iff.mp hrest
      simp only [pointStep, hbody, hnone]
    refine Alike.answered ?_
    rw [bodyStep, hstep]
    cases exitStep term env with
    | going target after =>
      refine .going ?_ after
      rfl
    | ended ending after => exact .ended ending after
  | cons s rest ih =>
    intro k env hrest
    have hsome : stores[k]? = some s := by
      rw [← List.head?_drop, hrest, List.head?_cons]
    have hstep : g.pointStep ⟨i, k⟩ env = withValue (s.value.valueIn env) env fun v =>
        .going ⟨i, k + 1⟩ (Function.update env s.name v) := by
      simp only [pointStep, hbody, hsome, Point.next]
    have hdrop : stores.drop (k + 1) = rest := by
      rw [← List.tail_drop, hrest, List.tail_cons]
    rw [bodyStep]
    cases hvalue : s.value.valueIn env with
    | error error =>
      refine Alike.answered ?_
      rw [hstep, hvalue]
      exact .ended _ _
    | ok v =>
      refine .before ?_ (ih (k + 1) _ hdrop)
      rw [hstep, hvalue]
      rfl

/-- **Blocks and points end alike.** -/
theorem ends_blockStep_iff (i : Nat) (env : Env) (result : Ending × Env) :
    (∃ n, run g.blockStep n i env = some result) ↔
      ∃ n, run g.pointStep n (.start i) env = some result := by
  refine ends_iff (R := fun b p => p = .start b) ?_ rfl env result
  rintro b p env rfl
  unfold blockStep
  cases hbody : g.body? b with
  | none =>
    refine Alike.answered ?_
    simp only [pointStep, Point.start, hbody]
    exact .ended _ _
  | some body => exact answered_bodyStep hbody body.1 0 env rfl

end Graph

end BlockFlow
