import BlockFlow.Tree.Basic

/-!
# Normalisation

The tree of a derivation holds more than the program: sequences nest to the right, operands sit in
expressions of their own, and every brace is a leaf.  Four passes bring it into normal form:

1. `flattenSequences` makes a list of each right-nested sequence;
2. `flattenValues` puts an operand in place of an expression that has no operator;
3. `removeNoise` drops the leaves that only gave the tree its shape;
4. `segmentBlocks` groups assignments that follow each other into basic blocks, a return joining
   the block before it and closing it.

A pass works on every tree, whatever its shape.  Nodes that stay keep their numbers.  Only the last
pass makes new nodes; it numbers the blocks of one sequence before it goes into any of the
sequence's statements.
-/

namespace BlockFlow

namespace Node

/-! ### Sequences -/

mutual

/-- Makes a flat list of each sequence that is a pair of a wrapped statement and a rest. -/
def flattenSequences : Node → Node
  | ⟨id, .sequence, token, [⟨_, .wrapper, _, []⟩, rest]⟩ =>
    ⟨id, .sequence, token, (flattenSequences rest).children⟩
  | ⟨id, .sequence, token, [⟨_, .wrapper, _, statement :: _⟩, rest]⟩ =>
    ⟨id, .sequence, token, flattenSequences statement :: (flattenSequences rest).children⟩
  | ⟨id, rule, token, children⟩ => ⟨id, rule, token, flattenSequencesAll children⟩

/-- Flattens the sequences of trees. -/
def flattenSequencesAll : List Node → List Node
  | [] => []
  | child :: rest => flattenSequences child :: flattenSequencesAll rest

end

/-! ### Expressions -/

/-- Whether the node is an expression that consists of an operand alone. -/
def isOperandOnly (n : Node) : Bool :=
  match n.rule, n.children with
  | .value, [_, ⟨_, .tail, _, []⟩] => true
  | _, _ => false

mutual

/-- Puts the operand in place of every expression below the root that has no operator. -/
def flattenValues : Node → Node
  | ⟨id, rule, token, children⟩ => ⟨id, rule, token, flattenValuesAll children⟩

/-- Replaces trees that are an operand alone, and goes into the others. -/
def flattenValuesAll : List Node → List Node
  | [] => []
  | ⟨_, .value, _, [operand, ⟨_, .tail, _, []⟩]⟩ :: rest => operand.leaf :: flattenValuesAll rest
  | child :: rest => flattenValues child :: flattenValuesAll rest

end

/-! ### Noise -/

/-- Whether the node is a leaf of the source that only gave the tree its shape. -/
def isNoise (n : Node) : Bool :=
  match n.kind? with
  | some kind => kind.isNoise
  | none => false

mutual

/-- Drops the leaves below the root that only gave the tree its shape. -/
def removeNoise : Node → Node
  | ⟨id, rule, token, children⟩ => ⟨id, rule, token, removeNoiseAll children⟩

/-- Drops noise among trees, keeps other leaves of the source, and goes into what is no leaf. -/
def removeNoiseAll : List Node → List Node
  | [] => []
  | child :: rest =>
    match child.kind? with
    | some kind =>
      if kind.isNoise then removeNoiseAll rest else child.leaf :: removeNoiseAll rest
    | none => removeNoise child :: removeNoiseAll rest

end

/-! ### Basic blocks -/

/-- The groups that the statements of a sequence form, from left to right: a statement that stands
alone, or the statements of a basic block. -/
inductive Segment where
  | single (statement : Node)
  | block (statements : List Node)
deriving Repr, Inhabited

/-- The group of the statements that wait to become a block, if there are any. -/
def pendingSegment (pending : List Node) : List Segment :=
  if pending.isEmpty then [] else [.block pending]

/-- Groups statements: assignments wait to become a block, a return joins the ones that wait and
closes the block, and anything else closes the block and stands alone. -/
def segmentsFrom (pending : List Node) : List Node → List Segment
  | [] => pendingSegment pending
  | s :: rest =>
    match s.rule with
    | .assign => segmentsFrom (pending ++ [s]) rest
    | .ret => .block (pending ++ [s]) :: segmentsFrom [] rest
    | _ => pendingSegment pending ++ .single s :: segmentsFrom [] rest

/-- How many blocks there are among groups. -/
def blockCount (segments : List Segment) : Nat :=
  segments.countP fun
    | .block _ => true
    | .single _ => false

/-- The nodes of groups; the blocks are numbered behind the last number used. -/
def numberSegments (last : Nat) : List Segment → List Node
  | [] => []
  | .single s :: rest => s :: numberSegments last rest
  | .block statements :: rest =>
    ⟨last + 1, .basicBlock, none, statements⟩ :: numberSegments (last + 1) rest

mutual

/-- Groups the statements of every sequence of a tree into basic blocks.  The new nodes are
numbered behind the last number used, and the last number used afterwards is returned. -/
def segmentBlocks (last : Nat) : Node → Node × Nat
  | ⟨id, .sequence, token, children⟩ =>
    -- Going into the statements changes neither their rules nor their number, so the blocks can be
    -- counted before and formed after it.
    let (entered, after) := segmentBlocksAll (last + blockCount (segmentsFrom [] children)) children
    (⟨id, .sequence, token, numberSegments last (segmentsFrom [] entered)⟩, after)
  | ⟨id, rule, token, children⟩ =>
    let (entered, after) := segmentBlocksAll last children
    (⟨id, rule, token, entered⟩, after)

/-- Goes into trees from left to right. -/
def segmentBlocksAll (last : Nat) : List Node → List Node × Nat
  | [] => ([], last)
  | child :: rest =>
    let (first, last) := segmentBlocks last child
    let (others, last) := segmentBlocksAll last rest
    (first :: others, last)

end

end Node

/-! ### The passes by name -/

/-- One step of normalisation. -/
inductive Pass where
  | flattenSequences
  | flattenValues
  | removeNoise
  | segmentBlocks
deriving DecidableEq, Repr, Inhabited

namespace Pass

/-- The passes in the order of normalisation. -/
def pipeline : List Pass :=
  [flattenSequences, flattenValues, removeNoise, segmentBlocks]

/-- The name of a pass. -/
def name : Pass → String
  | flattenSequences => "flatten-sequences"
  | flattenValues => "flatten-rvalues"
  | removeNoise => "remove-noise"
  | segmentBlocks => "segment-blocks"

/-- Applies a pass to a tree, with the last number used before and after it. -/
def apply (pass : Pass) (tree : Node × Nat) : Node × Nat :=
  match pass with
  | flattenSequences => (tree.1.flattenSequences, tree.2)
  | flattenValues => (tree.1.flattenValues, tree.2)
  | removeNoise => (tree.1.removeNoise, tree.2)
  | segmentBlocks => tree.1.segmentBlocks tree.2

/-- Applies passes one after the other. -/
def applyAll (passes : List Pass) (tree : Node × Nat) : Node × Nat :=
  passes.foldl (fun tree pass => pass.apply tree) tree

end Pass

/-- The normal form of a tree, with the last number used before and after it. -/
def normalize (tree : Node × Nat) : Node × Nat :=
  Pass.applyAll Pass.pipeline tree

end BlockFlow
