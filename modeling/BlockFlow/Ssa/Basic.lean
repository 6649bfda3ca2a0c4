/-!
# Static single assignment form

A function in static single assignment form has one block for each block of a graph that can be
reached.  Only the flow of variables is kept: a store defines a new version of its variable from the
versions it reads, conditions and returns read versions, and the entry defines the first version of
every variable.  Where ways join, a phi defines a version from one version for each predecessor.

Within a function blocks are numbered by their place; each also keeps the number and the name that
it has in the graph, and what is known of dominance.
-/

namespace BlockFlow

/-- One version of a variable. -/
structure Version where
  /-- The variable. -/
  name : String
  /-- The number of the version. -/
  number : Nat := 0
deriving DecidableEq, Repr, Inhabited

/-- What an instruction stands for. -/
inductive InstrKind where
  /-- Room for a variable. -/
  | alloca
  | assign
  | phi
  | cond
  | ret
deriving DecidableEq, Repr, Inhabited

/-- An instruction: the version it defines, if any, and the versions it reads. -/
structure Instr where
  /-- What the instruction stands for. -/
  kind : InstrKind
  /-- The version it defines. -/
  target : Option Version := none
  /-- The versions it reads. -/
  uses : List Version := []
deriving DecidableEq, Repr, Inhabited

/-- A block of a function. -/
structure SsaBlock where
  /-- Its number in the graph. -/
  id : Nat
  /-- Its name in the graph. -/
  name : String
  /-- Its predecessors that can be reached, as the graph lists them. -/
  preds : List Nat
  /-- Its successors. -/
  succs : List Nat
  /-- The phis at its start. -/
  phis : List Instr := []
  /-- The instructions behind the phis. -/
  instrs : List Instr
  /-- The blocks that dominate it. -/
  dominators : List Nat := []
  /-- Its immediate dominator. -/
  idom : Option Nat := none
  /-- The blocks whose immediate dominator it is. -/
  children : List Nat := []
  /-- Its dominance frontier. -/
  frontier : List Nat := []
deriving DecidableEq, Repr, Inhabited

/-- A function in static single assignment form. -/
structure SsaFunction where
  /-- The variables. -/
  vars : List String
  /-- The blocks; the entry is the first. -/
  blocks : Array SsaBlock
deriving DecidableEq, Repr, Inhabited

namespace SsaFunction

/-- The name of the block at a place. -/
def blockName (f : SsaFunction) (i : Nat) : String :=
  match f.blocks[i]? with
  | some b => b.name
  | none => "?"

/-- Whether the block at one place dominates the block at another. -/
def dominates (f : SsaFunction) (a b : Nat) : Bool :=
  match f.blocks[b]? with
  | some block => block.dominators.contains a
  | none => false

end SsaFunction

end BlockFlow
