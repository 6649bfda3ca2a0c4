import BlockFlow.Graph.Basic
import BlockFlow.Machine.Inputs
import BlockFlow.Machine.Stack

/-!
# The machine

A machine executes a graph block by block.  Its variables are words in numbered slots, zero unless
an input says otherwise; expressions are evaluated on a stack, the left operand first.  Executing a
block (`Machine.step`) carries out its stores and then its terminator, which either names the next
block or ends the run with a value.

Before every block the run asks whether it was cancelled, then counts the block, then compares the
count with the limit.  A run that is stopped, or that meets an error, has no value; its variables
stay as they were at that moment.

A machine can run any number of times.  Each run starts by clearing the variables and the stack.

Runs without a limit need not end, so `Machine.run` takes the number of blocks to execute at most;
a run that would need more is `unfinished`.
-/

namespace BlockFlow

/-! ### Errors -/

/-- What goes wrong inside a block. -/
inductive EvalError where
  | divisionByZero
  | unknownVariable (name : String)
  | unknownOperator (op : Op)
  /-- An expression is missing. -/
  | unknownExpression
  /-- The terminator, given by its name, is none of the language. -/
  | unknownTerminator (name : String)
  /-- A cell of the stack or a slot does not exist. -/
  | outOfBounds
deriving DecidableEq, Repr, Inhabited

namespace EvalError

/-- The wording of an error. -/
def message : EvalError → String
  | divisionByZero => "division by zero"
  | unknownVariable name => "unknown variable " ++ name
  | unknownOperator op => "unknown operator " ++ op.text
  | unknownExpression => "unknown expression <nil>"
  | unknownTerminator name => "unknown terminator " ++ name
  | outOfBounds => "index out of range"

end EvalError

/-- Why a run has no value. -/
inductive RunError where
  /-- An input names no variable of the graph. -/
  | unknownInput (name : String)
  /-- The run was cancelled. -/
  | cancelled
  /-- A block would have exceeded the limit. -/
  | stepLimit (block : String) (limit : Int)
  /-- An error inside a block. -/
  | inBlock (block : String) (error : EvalError)
deriving DecidableEq, Repr, Inhabited

namespace RunError

/-- The full diagnostic. -/
def message : RunError → String
  | unknownInput name => "input " ++ name ++ ": unknown variable"
  | cancelled => "context canceled"
  | stepLimit block limit =>
    "block " ++ block ++ ": step limit exceeded (" ++ toString limit ++ ")"
  | inBlock block error => "block " ++ block ++ ": " ++ error.message

end RunError

/-- How a run ends. -/
inductive Outcome where
  /-- The program ended with a value. -/
  | finished (value : Int64)
  /-- The run was stopped by an error. -/
  | failed (error : RunError)
  /-- The run needed a cell, a slot or a block that does not exist. -/
  | crashed
  /-- The run did not end within the blocks it was given. -/
  | unfinished
deriving DecidableEq, Repr, Inhabited

namespace Outcome

/-- The value of a run; zero when it has none. -/
def value : Outcome → Int64
  | finished value => value
  | _ => 0

/-- The error of a run. -/
def error? : Outcome → Option RunError
  | failed error => some error
  | _ => none

end Outcome

/-! ### The machine -/

/-- A machine for one graph. -/
structure Machine where
  /-- The graph to execute. -/
  graph : Graph
  /-- How many blocks a run may execute; there is no limit when it is not positive. -/
  limit : Int
  /-- The values that variables get before a run. -/
  inputs : Inputs
  /-- The slots of the variables. -/
  slots : List (String × Nat)
  /-- The variables by slot. -/
  vars : Array Int64
  /-- The evaluation stack. -/
  stack : EvalStack
  /-- How many blocks the last run counted. -/
  steps : Nat
deriving DecidableEq, Inhabited

namespace Machine

/-- The slots of variables: each has the number of its place.  A name that stands in two places has
the later one. -/
def slotsOf (vars : List String) : List (String × Nat) :=
  vars.zipIdx.reverse

/-- A new machine. -/
def new (graph : Graph) (limit : Int) (inputs : Inputs) : Machine where
  graph := graph
  limit := limit
  inputs := inputs
  slots := slotsOf graph.vars
  vars := Array.replicate graph.vars.length 0
  stack := .fresh
  steps := 0

/-- The slot of a variable. -/
def slot? (m : Machine) (name : String) : Option Nat :=
  m.slots.lookup name

/-- The current value of a variable. -/
def get? (m : Machine) (name : String) : Option Int64 :=
  (m.slot? name).bind fun i => m.vars[i]?

/-! ### Expressions -/

/-- The error of an operator that has no value for its operands. -/
def operatorError (op : Op) : EvalError :=
  if op = .div then .divisionByZero else .unknownOperator op

/-- Puts a value on a stack, or notes that there is no place for it. -/
def pushValue (s : EvalStack) (value : Int64) : EvalStack × Option EvalError :=
  match s.push? value with
  | some s => (s, none)
  | none => (s, some .outOfBounds)

/-- Applies an operator to the two values on top of a stack, and puts its value in their place. -/
def applyOp (op : Op) (s : EvalStack) : EvalStack × Option EvalError :=
  match s.popUnder? with
  | none => (s, some .outOfBounds)
  | some (l, r, s) =>
    match op.eval l r with
    | none => (s, some (operatorError op))
    | some value =>
      match s.replaceTop? value with
      | some s => (s, none)
      | none => (s, some .outOfBounds)

/-- Puts the value of an expression on a stack.  On an error the stack is left as it stands. -/
def pushExpr (slots : List (String × Nat)) (vars : Array Int64) :
    Expr → EvalStack → EvalStack × Option EvalError
  | .const value, s => pushValue s value
  | .load name, s =>
    match slots.lookup name with
    | none => (s, some (.unknownVariable name))
    | some i =>
      match vars[i]? with
      | some value => pushValue s value
      | none => (s, some .outOfBounds)
  | .binary op left right, s =>
    match pushExpr slots vars left s with
    | (s, some error) => (s, some error)
    | (s, none) =>
      match pushExpr slots vars right s with
      | (s, some error) => (s, some error)
      | (s, none) => applyOp op s
  | .absent, s => (s, some .unknownExpression)

/-- The value of an expression, by way of a stack. -/
def evalExpr (slots : List (String × Nat)) (vars : Array Int64) (e : Expr) (s : EvalStack) :
    Except EvalError Int64 × EvalStack :=
  match pushExpr slots vars e s with
  | (s, some error) => (.error error, s)
  | (s, none) =>
    match s.pop? with
    | some (value, s) => (.ok value, s)
    | none => (.error .outOfBounds, s)

/-! ### Blocks -/

/-- Carries out stores in order, up to the first error.  A variable that has no slot is taken to
have the first one. -/
def runStores (slots : List (String × Nat)) :
    List Store → Array Int64 → EvalStack → Array Int64 × EvalStack × Option EvalError
  | [], vars, s => (vars, s, none)
  | store :: rest, vars, s =>
    match evalExpr slots vars store.value s with
    | (.error error, s) => (vars, s, some error)
    | (.ok value, s) =>
      let i := (slots.lookup store.name).getD 0
      if i < vars.size then runStores slots rest (vars.setIfInBounds i value) s
      else (vars, s, some .outOfBounds)

/-- What the terminator of a block leads to. -/
inductive Transfer where
  /-- Control goes on with a block. -/
  | goto (target : Nat)
  /-- The program ends with a value. -/
  | finish (value : Int64)
  /-- An error. -/
  | fail (error : EvalError)
deriving DecidableEq, Repr, Inhabited

/-- Carries out a terminator. -/
def runTerminator (slots : List (String × Nat)) (vars : Array Int64) (s : EvalStack) :
    Option Terminator → Transfer × EvalStack
  | none => (.finish 0, s)
  | some (.ret value) =>
    match evalExpr slots vars value s with
    | (.ok value, s) => (.finish value, s)
    | (.error error, s) => (.fail error, s)
  | some (.jump target) => (.goto target, s)
  | some (.branch cond onTrue onFalse) =>
    match evalExpr slots vars cond s with
    | (.ok value, s) => (.goto (if 0 < value then onTrue else onFalse), s)
    | (.error error, s) => (.fail error, s)
  | some (.other name) => (.fail (.unknownTerminator name), s)

/-- Executes a block: its stores, then its terminator. -/
def step (m : Machine) (b : Block) : Transfer × Machine :=
  match runStores m.slots b.stores m.vars m.stack with
  | (vars, stack, some error) => (.fail error, { m with vars, stack })
  | (vars, stack, none) =>
    let (transfer, stack) := runTerminator m.slots vars stack b.term
    (transfer, { m with vars, stack })

/-! ### Runs -/

/-- How often a run that asks whether it was cancelled is still answered no; without a number it
never is cancelled. -/
abbrev Polls := Option Nat

/-- Executes blocks from the given one on, at most `fuel` of them. -/
def runFrom : (fuel : Nat) → Machine → Polls → (block : Nat) → Outcome × Machine × Polls
  | 0, m, polls, _ => (.unfinished, m, polls)
  | fuel + 1, m, polls, block =>
    match m.graph.blocks[block]? with
    | none => (.crashed, m, polls)
    | some b =>
      if polls = some 0 then (.failed .cancelled, m, polls)
      else
        let polls := polls.map (· - 1)
        let m := { m with steps := m.steps + 1 }
        if 0 < m.limit ∧ m.limit < m.steps then
          (.failed (.stepLimit b.name m.limit), m, polls)
        else
          match m.step b with
          | (.goto target, m) => runFrom fuel m polls target
          | (.finish value, m) => (.finished value, m, polls)
          | (.fail .outOfBounds, m) => (.crashed, m, polls)
          | (.fail error, m) => (.failed (.inBlock b.name error), m, polls)

/-- Gives variables their inputs, up to the first name that is no variable. -/
def bindInputs (slots : List (String × Nat)) :
    List (String × Int64) → Array Int64 → Array Int64 × Option String
  | [], vars => (vars, none)
  | (name, value) :: rest, vars =>
    match slots.lookup name with
    | none => (vars, some name)
    | some i => bindInputs slots rest (vars.setIfInBounds i value)

/-- The machine with cleared variables, stack and count. -/
def reset (m : Machine) : Machine :=
  { m with
    vars := m.vars.map fun _ => 0
    stack := { m.stack with depth := 0 }
    steps := 0 }

/-- Runs the graph from its entry, executing at most `fuel` blocks. -/
def run (fuel : Nat) (m : Machine) (polls : Polls) : Outcome × Machine × Polls :=
  let m := m.reset
  match bindInputs m.slots m.inputs.entries m.vars with
  | (vars, some name) => (.failed (.unknownInput name), { m with vars }, polls)
  | (vars, none) => runFrom fuel { m with vars } polls 0

/-- More blocks than any run executes that ends. -/
def enough : Nat :=
  1 <<< 62

end Machine

end BlockFlow
