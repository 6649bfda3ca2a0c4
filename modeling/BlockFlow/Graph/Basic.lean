import BlockFlow.Graph.Expr

/-!
# Control-flow graphs

A graph is a list of blocks that refer to each other by number.  A block executes its stores in
order and then its terminator, which says where control goes; a block without a terminator ends the
program with the value zero.  Block 0 is the entry.  It makes room for the variables of the graph,
and control starts there.

Each block also lists its predecessors, once for every branch that leads to it.  A graph made by
hand may list something else, and may branch to blocks that do not exist.
-/

namespace BlockFlow

/-- Gives a variable the value of an expression. -/
structure Store where
  /-- The variable. -/
  name : String
  /-- Its new value. -/
  value : Expr
deriving DecidableEq, Repr, Inhabited

/-- How a block ends. -/
inductive Terminator where
  /-- Goes on with a block. -/
  | jump (target : Nat)
  /-- Goes on with `onTrue` when the condition is greater than zero and with `onFalse`
  otherwise. -/
  | branch (cond : Expr) (onTrue onFalse : Nat)
  /-- Ends the program with a value. -/
  | ret (value : Expr)
  /-- A terminator outside the language, known by its name only. -/
  | other (name : String)
deriving DecidableEq, Repr, Inhabited

namespace Terminator

/-- The blocks that control may go on with, in the order of the branch. -/
def successors : Terminator → List Nat
  | jump target => [target]
  | branch _ onTrue onFalse => [onTrue, onFalse]
  | ret _ | other _ => []

end Terminator

/-- A basic block. -/
structure Block where
  /-- The number of the block. -/
  id : Nat
  /-- What the block was made for. -/
  label : String
  /-- What is stored, in order. -/
  stores : List Store := []
  /-- How the block ends. -/
  term : Option Terminator := none
  /-- The numbers of the blocks that branch here. -/
  preds : List Nat := []
deriving DecidableEq, Repr, Inhabited

namespace Block

/-- The name of a block: its label followed by its number.  Block 0 has a name of its own. -/
def name (b : Block) : String :=
  if b.id = 0 then "entry" else b.label ++ toString b.id

/-- The blocks that control may go on with. -/
def successors (b : Block) : List Nat :=
  match b.term with
  | some t => t.successors
  | none => []

end Block

/-- A control-flow graph. -/
structure Graph where
  /-- The variables, in the order in which the entry makes room for them. -/
  vars : List String
  /-- The blocks, by number. -/
  blocks : Array Block
deriving DecidableEq, Repr, Inhabited

namespace Graph

/-- The name of the block that has a number. -/
def blockName (g : Graph) (i : Nat) : String :=
  match g.blocks[i]? with
  | some b => b.name
  | none => "?"

/-- The blocks that control may go on with after a block. -/
def successors (g : Graph) (i : Nat) : List Nat :=
  match g.blocks[i]? with
  | some b => b.successors
  | none => []

/-- The branches of a graph, by the numbers of their ends: by source, then in the order of the
branch. -/
def edges (g : Graph) : List (Nat × Nat) :=
  g.blocks.toList.flatMap fun b => b.successors.map fun target => (b.id, target)

/-! ### Predecessors -/

/-- Notes a predecessor in a block. -/
def addPred (blocks : Array Block) (source target : Nat) : Array Block :=
  blocks.modify target fun b => { b with preds := b.preds ++ [source] }

/-- The graph in which each block lists the blocks that branch to it: by source, then in the order
of the branch. -/
def withPreds (g : Graph) : Graph :=
  let cleared := g.blocks.map fun b => { b with preds := [] }
  let noted := g.edges.foldl (fun blocks (source, target) => addPred blocks source target) cleared
  { g with blocks := noted }

/-! ### Reachable blocks -/

/-- Adds to the blocks seen already the ones that can be reached from a block without passing
through them, in depth-first preorder.  `depth` bounds the length of the paths that are followed. -/
def visit (g : Graph) : (depth : Nat) → (seen : List Nat) → (block : Nat) → List Nat
  | 0, seen, _ => seen
  | depth + 1, seen, block =>
    if block ∈ seen then seen
    else (g.successors block).foldl (visit g depth) (seen ++ [block])

/-- The blocks that can be reached from the entry, in depth-first preorder.  A path that repeats no
block is no longer than the graph, so following paths up to that length loses none. -/
def reachable (g : Graph) : List Nat :=
  g.visit g.blocks.size [] 0

end Graph

end BlockFlow
