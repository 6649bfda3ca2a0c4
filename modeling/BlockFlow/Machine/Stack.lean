/-!
# The evaluation stack

Expressions are evaluated on a stack of words.  The stack is an array of cells of which the first
`depth` are in use; the others hold what was left there.  When all cells are in use and one more is
needed, the array doubles.

An access outside the array is no access at all: the operations then have no result.
-/

namespace BlockFlow

/-- A stack of words in an array of cells. -/
structure EvalStack where
  /-- The cells. -/
  cells : Array Int64
  /-- How many cells are in use. -/
  depth : Nat
deriving DecidableEq, Repr, Inhabited

namespace EvalStack

/-- The stack that a new machine has: sixteen cells, none of them in use. -/
def fresh : EvalStack where
  cells := Array.replicate 16 0
  depth := 0

/-- Makes room for one more value: an array that is in use as a whole doubles. -/
def grow (s : EvalStack) : EvalStack :=
  if s.cells.size ≤ s.depth then ⟨s.cells ++ Array.replicate s.cells.size 0, s.depth⟩ else s

/-- Writes a cell of the array. -/
def write? (s : EvalStack) (i : Nat) (value : Int64) : Option EvalStack :=
  if i < s.cells.size then some ⟨s.cells.setIfInBounds i value, s.depth⟩ else none

/-- Puts a value on top. -/
def push? (s : EvalStack) (value : Int64) : Option EvalStack := do
  let written ← s.grow.write? s.depth value
  some ⟨written.cells, s.depth + 1⟩

/-- Takes the value on top. -/
def pop? (s : EvalStack) : Option (Int64 × EvalStack) :=
  match s.depth with
  | 0 => none
  | n + 1 => do
    let top ← s.cells[n]?
    some (top, ⟨s.cells, n⟩)

/-- The two values on top, the lower one first; the upper one is taken. -/
def popUnder? (s : EvalStack) : Option (Int64 × Int64 × EvalStack) :=
  match s.depth with
  | n + 2 => do
    let lower ← s.cells[n]?
    let upper ← s.cells[n + 1]?
    some (lower, upper, ⟨s.cells, n + 1⟩)
  | _ => none

/-- Writes a value over the one on top. -/
def replaceTop? (s : EvalStack) (value : Int64) : Option EvalStack :=
  match s.depth with
  | 0 => none
  | n + 1 => s.write? n value

end EvalStack

end BlockFlow
