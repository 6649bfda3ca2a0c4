import BlockFlow.Grammar.Statement
import BlockFlow.Machine.Basic
import Mathlib.Logic.Function.Basic

/-!
# What programs mean

The meaning of a program is given by an interpreter that knows statements only: no tree, no graph
and no stack.  Its state is the list of the statements that are still to be executed together with
the values of all variables.  One step (`Statement.step`) takes the first statement off the list.  A
conditional puts the arm that was chosen in its place, a loop whose test holds puts its body in
front of itself, and a return ends the program whatever else was still to be done.  When nothing is
left the program ends with the value zero.

Steps are repeated by `Progress.run`, which takes the number of steps as its bound and has no result
when they do not suffice.  Nothing in it depends on what the states are, so it also serves for other
descriptions of the same program.  `Progress.ends_iff` compares two of them: if each step of the one
is answered by at least one step of the other, they end in the same ways, and so one of them runs
forever exactly if the other does.
-/

namespace BlockFlow

/-- The values of all variables. -/
abbrev Env := String → Int64

/-- What can be seen of the variables when only some of them are known. -/
def Env.restrict (names : List String) (env : Env) (name : String) : Option Int64 :=
  if name ∈ names then some (env name) else none

/-- How a program ends. -/
inductive Ending where
  /-- With a value. -/
  | finished (value : Int64)
  /-- With an error. -/
  | failed (error : EvalError)
deriving DecidableEq, Repr, Inhabited

/-- What one step leads to. -/
inductive Progress (α : Type) where
  /-- To another state. -/
  | going (state : α) (env : Env)
  /-- To the end of the program. -/
  | ended (ending : Ending) (env : Env)

namespace Progress

variable {α β : Type}

/-- Goes on with a value that was computed, or ends with the error met instead. -/
def withValue (result : Except EvalError Int64) (env : Env) (next : Int64 → Progress α) :
    Progress α :=
  match result with
  | .ok value => next value
  | .error error => .ended (.failed error) env

/-- Takes steps, at most as many as are given, up to the end of the program. -/
def run (step : α → Env → Progress α) : Nat → α → Env → Option (Ending × Env)
  | 0, _, _ => none
  | n + 1, state, env =>
    match step state env with
    | going state env => run step n state env
    | ended ending env => some (ending, env)

variable {step : α → Env → Progress α} {step' : β → Env → Progress β}

/-- A run that has ended ends in the same way when it may take more steps. -/
theorem run_mono {n m : Nat} {state : α} {env : Env} {result : Ending × Env} (hle : n ≤ m)
    (h : run step n state env = some result) : run step m state env = some result := by
  induction n generalizing m state env with
  | zero => cases h
  | succ n ih =>
    obtain ⟨m, rfl⟩ : ∃ m', m = m' + 1 := ⟨m - 1, by omega⟩
    rw [run] at h ⊢
    cases hstep : step state env with
    | going next after =>
      rw [hstep] at h
      exact ih (by omega) h
    | ended ending after =>
      rw [hstep] at h
      exact h

/-- A program ends in one way only. -/
theorem run_unique {n m : Nat} {state : α} {env : Env} {result result' : Ending × Env}
    (h : run step n state env = some result) (h' : run step m state env = some result') :
    result = result' := by
  have hmax := run_mono (Nat.le_max_left n m) h
  rw [run_mono (Nat.le_max_right n m) h'] at hmax
  exact (Option.some.inj hmax).symm

/-- The second description answers what a step of the first one leads to: it goes on, in one or more
steps, to a related state with the same variables, or it ends in the same way. -/
def Answered (step' : β → Env → Progress β) (related : α → β → Prop) (state' : β) (env : Env) :
    Progress α → Prop
  | going next after => ∃ (next' : β) (k : Nat), related next next' ∧
      ∀ n, run step' (k + 1 + n) state' env = run step' n next' after
  | ended ending after => ∃ n, run step' n state' env = some (ending, after)

/-- **Descriptions that answer each other end alike.**  If a second description answers every step
of a first one, then from related states the two end in the same ways. -/
theorem ends_iff {R : α → β → Prop}
    (hstep : ∀ state state' env, R state state' →
      Answered step' R state' env (step state env))
    {state : α} {state' : β} (h : R state state') (env : Env) (result : Ending × Env) :
    (∃ n, run step n state env = some result) ↔ ∃ n, run step' n state' env = some result := by
  constructor
  · -- What the first description does, the second one follows.
    rintro ⟨n, hrun⟩
    induction n generalizing state state' env with
    | zero => cases hrun
    | succ n ih =>
      have hanswer := hstep state state' env h
      rw [run] at hrun
      cases hnext : step state env with
      | going next after =>
        rw [hnext] at hrun hanswer
        obtain ⟨next', k, hrelated, hreach⟩ := hanswer
        obtain ⟨m, hm⟩ := ih hrelated after hrun
        exact ⟨k + 1 + m, by rw [hreach, hm]⟩
      | ended ending after =>
        rw [hnext] at hrun hanswer
        obtain ⟨m, hm⟩ := hanswer
        exact ⟨m, by rw [hm]; exact hrun⟩
  · -- The second description has fewer steps left after every answer, so its bound decreases.
    rintro ⟨n, hrun⟩
    induction n using Nat.strongRecOn generalizing state state' env with
    | _ n ih =>
      have hanswer := hstep state state' env h
      cases hnext : step state env with
      | ended ending after =>
        rw [hnext] at hanswer
        obtain ⟨m, hm⟩ := hanswer
        rw [run_unique hrun hm]
        exact ⟨1, by rw [run, hnext]⟩
      | going next after =>
        rw [hnext] at hanswer
        obtain ⟨next', k, hrelated, hreach⟩ := hanswer
        have hlt : k + 1 ≤ n := by
          by_contra hlt
          have hshort := run_mono (by omega : n ≤ k + 1 + 0) hrun
          rw [hreach] at hshort
          cases hshort
        have hrest : run step' (n - (k + 1)) next' after = some result := by
          rw [← hreach, Nat.add_sub_cancel' hlt]
          exact hrun
        obtain ⟨m, hm⟩ := ih (n - (k + 1)) (by omega) hrelated after hrest
        exact ⟨m + 1, by rw [run, hnext]; exact hm⟩

/-- A description may take a step of its own before it answers. -/
theorem Answered.before {related : α → β → Prop} {state' middle : β} {env between : Env}
    {progress : Progress α} (hstep : step' state' env = going middle between)
    (h : Answered step' related middle between progress) :
    Answered step' related state' env progress := by
  cases progress with
  | going next after =>
    obtain ⟨next', k, hrelated, hreach⟩ := h
    refine ⟨next', k + 1, hrelated, fun n => ?_⟩
    rw [show k + 1 + 1 + n = (k + 1 + n) + 1 by omega, run, hstep]
    exact hreach n
  | ended ending after =>
    obtain ⟨n, hn⟩ := h
    exact ⟨n + 1, by rw [run, hstep]; exact hn⟩

/-- Two steps lead to the same variables, and to related states or to the same end. -/
inductive Alike (related : α → β → Prop) : Progress α → Progress β → Prop where
  | going {next : α} {next' : β} (h : related next next') (env : Env) :
      Alike related (.going next env) (.going next' env)
  | ended (ending : Ending) (env : Env) : Alike related (.ended ending env) (.ended ending env)

theorem Alike.withValue {related : α → β → Prop} {next : Int64 → Progress α}
    {next' : Int64 → Progress β} (result : Except EvalError Int64) (env : Env)
    (h : ∀ v, Alike related (next v) (next' v)) :
    Alike related (withValue result env next) (withValue result env next') := by
  cases result with
  | error error => exact .ended _ _
  | ok v => exact h v

/-- A single step can be the answer. -/
theorem Alike.answered {related : α → β → Prop} {state' : β} {env : Env} {progress : Progress α}
    (h : Alike related progress (step' state' env)) :
    Answered step' related state' env progress := by
  generalize hprogress : step' state' env = progress' at h
  cases h with
  | @going next next' h after =>
    exact ⟨next', 0, h, fun n => by rw [show 0 + 1 + n = n + 1 by omega, run, hprogress]⟩
  | ended ending after => exact ⟨1, by rw [run, hprogress]⟩

end Progress

/-! ### The interpreter -/

namespace Token

/-- The value of an operand: a number stands for itself and a name for its variable. -/
def value (env : Env) (t : Token) : Except EvalError Int64 :=
  match t.lexeme with
  | .number value => .ok value
  | .ident name => .ok (env name)
  | _ => .error .unknownExpression

/-- The variable that a token names. -/
def variableName (t : Token) : String :=
  match t.lexeme with
  | .ident name => name
  | _ => ""

end Token

namespace Expression

/-- What an operator makes of two words.  Sums, differences and products are those of the integers,
wrapped around to words; quotients are rounded toward zero and wrapped around likewise; comparisons
give one or zero. -/
def operate (symbol : Char) (l r : Int64) : Except EvalError Int64 :=
  match symbol with
  | '+' => .ok (.ofInt (l.toInt + r.toInt))
  | '-' => .ok (.ofInt (l.toInt - r.toInt))
  | '*' => .ok (.ofInt (l.toInt * r.toInt))
  | '/' => if r = 0 then .error .divisionByZero else .ok (.ofInt (l.toInt.tdiv r.toInt))
  | '<' => .ok (if l.toInt < r.toInt then 1 else 0)
  | '>' => .ok (if l.toInt > r.toInt then 1 else 0)
  | '=' => .ok (if l.toInt = r.toInt then 1 else 0)
  | '≤' => .ok (if l.toInt ≤ r.toInt then 1 else 0)
  | '≥' => .ok (if l.toInt ≥ r.toInt then 1 else 0)
  | _ => .error .unknownExpression

/-- The value of an expression, the left operand first. -/
def value (env : Env) (e : Expression) : Except EvalError Int64 :=
  match e.tail with
  | none => e.left.value env
  | some (operator, right) => do
    let l ← e.left.value env
    let r ← right.value env
    match operator.lexeme with
    | .op symbol => operate symbol l r
    | _ => .error .unknownExpression

end Expression

namespace Statement

open Progress

/-- Executes the first of the statements that are still to be executed. -/
def step : List Statement → Env → Progress (List Statement)
  | [], env => .ended (.finished 0) env
  | .ret _ e _ :: _, env => withValue (e.value env) env fun v => .ended (.finished v) env
  | .assign target _ e _ :: rest, env =>
    withValue (e.value env) env fun v => .going rest (Function.update env target.variableName v)
  | .cond _ test _ thenBody _ _ _ elseBody _ :: rest, env =>
    withValue (test.value env) env fun v =>
      .going ((if 0 < v then thenBody else elseBody) ++ rest) env
  | .loop word test opening body closing :: rest, env =>
    withValue (test.value env) env fun v =>
      .going (if 0 < v then body ++ .loop word test opening body closing :: rest else rest) env

/-- Interprets a program, in at most as many steps as are given. -/
def interpret (fuel : Nat) (program : List Statement) (env : Env) : Option (Ending × Env) :=
  Progress.run step fuel program env

end Statement

end BlockFlow
