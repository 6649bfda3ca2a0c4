/-!
# Dominance

A block dominates another when every way from the entry to the other leads through it.  Here blocks
are numbers below a size, block 0 is the entry, and all that is known of a graph is the list of
predecessors of each block.

Dominators are found by sweeps.  At first every block but the entry counts as dominated by all
blocks.  A sweep replaces the dominators of each block, in order, by the block itself and what
dominates all its predecessors.  No set ever grows, so the sweeps settle, at the largest sets that a
sweep leaves alone.

The immediate dominator of a block is the strict dominator that has the most dominators itself; the
links to it form a tree.  The frontier of a block is where its dominance ends: the joins that have a
predecessor it dominates, found by climbing the tree from each predecessor of a join up to the
immediate dominator of the join.
-/

namespace BlockFlow.Dominance

/-- A list of blocks for each block. -/
abbrev Table := Array (List Nat)

namespace Table

/-- The entry of a block in a table; empty where the table has none. -/
def of (table : Table) (b : Nat) : List Nat :=
  (table[b]?).getD []

end Table

/-! ### Dominators -/

/-- The block itself and what dominates all its predecessors; a block without predecessors is
dominated by itself alone. -/
def dominatorsOf (preds table : Table) (b : Nat) : List Nat :=
  (List.range preds.size).filter fun a =>
    a == b || (!(preds.of b).isEmpty && (preds.of b).all fun p => (table.of p).contains a)

/-- Replaces the dominators of each block but the entry, in order. -/
def sweep (preds table : Table) : Table :=
  (List.range' 1 (preds.size - 1)).foldl
    (fun table b => table.setIfInBounds b (dominatorsOf preds table b)) table

/-- Sweeps until a sweep changes nothing, but at most `fuel` times. -/
def settle (preds : Table) : (fuel : Nat) → Table → Table
  | 0, table => table
  | fuel + 1, table =>
    let next := sweep preds table
    if next = table then table else settle preds fuel next

/-- Where the sweeps start: the entry is dominated by itself alone, any other block by all. -/
def everything (size : Nat) : Table :=
  Array.ofFn fun b : Fin size => if b.val = 0 then [0] else List.range size

/-- The dominators of each block, in increasing order.  A sweep that changes anything takes at least
one of at most `size * size` entries away, which bounds their number. -/
def dominators (preds : Table) : Table :=
  settle preds (preds.size * preds.size + 1) (everything preds.size)

/-! ### The dominator tree -/

/-- Of two candidates for the immediate dominator, the one that has more dominators; the earlier one
if they have equally many. -/
def deeper (doms : Table) (best : Option Nat) (d : Nat) : Option Nat :=
  match best with
  | none => some d
  | some e => if (doms.of e).length < (doms.of d).length then some d else some e

/-- The strict dominator of a block that has the most dominators. -/
def idomOf (doms : Table) (b : Nat) : Option Nat :=
  if b = 0 then none
  else ((doms.of b).filter (· != b)).foldl (deeper doms) none

/-- The immediate dominator of each block that has one. -/
abbrev Links := Array (Option Nat)

namespace Links

/-- The immediate dominator of a block. -/
def of (links : Links) (b : Nat) : Option Nat :=
  (links[b]?).getD none

/-- The blocks whose immediate dominator is the given one, in increasing order. -/
def childrenOf (links : Links) (b : Nat) : List Nat :=
  (List.range links.size).filter fun c => links.of c == some b

end Links

/-- The immediate dominators of all blocks. -/
def idoms (doms : Table) : Links :=
  Array.ofFn fun b : Fin doms.size => idomOf doms b.val

/-! ### Frontiers -/

/-- The blocks from a given one up the dominator tree, up to but without `stop`; at most `fuel` of
them. -/
def climb (links : Links) (stop : Option Nat) : (fuel : Nat) → (block : Nat) → List Nat
  | 0, _ => []
  | fuel + 1, b =>
    if some b = stop then []
    else b :: match links.of b with
      | some up => climb links stop fuel up
      | none => []

/-- The blocks that have a join in their frontier.  A block with fewer than two predecessors is no
join. -/
def frontierHolders (preds : Table) (links : Links) (b : Nat) : List Nat :=
  if (preds.of b).length < 2 then []
  else (preds.of b).flatMap fun p => climb links (links.of b) links.size p

/-- The frontier of each block, in increasing order. -/
def frontiers (preds : Table) (links : Links) : Table :=
  let holders := Array.ofFn fun b : Fin preds.size => frontierHolders preds links b.val
  Array.ofFn fun x : Fin preds.size =>
    (List.range preds.size).filter fun b => (Table.of holders b).contains x.val

/-! ### Iterated frontiers -/

/-- A search for the iterated frontier of some blocks. -/
structure Spread where
  /-- The blocks whose frontiers have not been looked at. -/
  work : List Nat
  /-- The blocks that are or were in the work list. -/
  queued : List Nat
  /-- The blocks found. -/
  found : List Nat
deriving DecidableEq, Repr, Inhabited

namespace Spread

/-- Notes a block of a frontier, and has its own frontier looked at unless that was or will be done
anyway. -/
def note (s : Spread) (y : Nat) : Spread :=
  if y ∈ s.found then s
  else if y ∈ s.queued then ⟨s.work, s.queued, s.found ++ [y]⟩
  else ⟨s.work ++ [y], s.queued ++ [y], s.found ++ [y]⟩

/-- Looks at the frontiers of the blocks in the work list, at most `fuel` of them. -/
def run (fronts : Table) : (fuel : Nat) → Spread → List Nat
  | 0, s => s.found
  | fuel + 1, s =>
    match s.work with
    | [] => s.found
    | b :: work => run fronts fuel ((fronts.of b).foldl note ⟨work, s.queued, s.found⟩)

end Spread

/-- The iterated frontier of blocks: their frontiers, the frontiers of the blocks in these, and so
on.  Every block is looked at once at most, which bounds the search. -/
def iteratedFrontier (fronts : Table) (blocks : List Nat) : List Nat :=
  Spread.run fronts fronts.size ⟨blocks, blocks, []⟩

end BlockFlow.Dominance
