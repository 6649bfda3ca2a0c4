import BlockFlow.Graph.Basic
import BlockFlow.Tree.Basic
import BlockFlow.Text.Quoted

/-!
# Lowering

Lowering turns a normal tree into a control-flow graph.  It goes through the statements from left to
right and keeps the block in which control stands.  A statement leaves control in some block, or
nowhere when it ends the program on every path; the rest of its sequence is then dropped.

Straight-line code goes into a new block, except at the start of an arm or of a loop body, whose own
block is still untouched and is filled instead.  A conditional makes a block for its test, one for
each arm and one where the arms meet.  A loop makes a block for its test, one for its body, which
goes back to the test, and one behind it.

Lowering works on every tree that has the normal shape as far as it looks, and names the node at
which it had to give up otherwise.
-/

namespace BlockFlow

/-! ### Errors -/

/-- Why a node cannot be lowered. -/
inductive LowerFault where
  | programNotSequence
  | notInSequence (rule : Rule)
  | notInBlock (rule : Rule)
  | malformedAssignment
  | malformedReturn
  | malformedConditional
  | malformedLoop
  | bodyNotSequence (rule : Rule)
  | unlistedVariable (name : String)
  | notExpression
  | notOperator
  | unknownOperator (symbol : Char)
deriving DecidableEq, Repr, Inhabited

namespace LowerFault

/-- The wording of a fault. -/
def message : LowerFault → String
  | programNotSequence => "program is not a sequence"
  | notInSequence rule => "unexpected " ++ rule.name ++ " in a sequence"
  | notInBlock rule => "unexpected " ++ rule.name ++ " in a basic block"
  | malformedAssignment => "malformed assignment"
  | malformedReturn => "malformed return"
  | malformedConditional => "malformed if"
  | malformedLoop => "malformed while"
  | bodyNotSequence rule => "body is " ++ rule.name ++ ", not a sequence"
  | unlistedVariable name => "variable " ++ name ++ " missing from the variable set"
  | notExpression => "not an expression"
  | notOperator => "expected an operator"
  | unknownOperator symbol => "unknown operator " ++ Text.quoteChar symbol

end LowerFault

/-- Why a tree cannot be lowered. -/
inductive LowerError where
  /-- A node is not what its place needs. -/
  | atNode (node : Node) (fault : LowerFault)
  /-- A block that already has a terminator was to get another. -/
  | terminatedTwice (block : String)
  /-- A leaf of the source that an expression needs has no token. -/
  | missingToken
deriving Repr, Inhabited

namespace LowerError

/-- The full diagnostic. -/
def message : LowerError → String
  | atNode node fault =>
    "internal error at node " ++ toString node.id ++ " (" ++ node.label ++ "): " ++ fault.message
  | terminatedTwice block => "internal error: block " ++ block ++ " terminated twice"
  | missingToken => "internal error: leaf without token"

end LowerError

/-! ### Building blocks -/

namespace Graph

/-- The graph with one more block at the end, and the number of that block. -/
def addBlock (g : Graph) (label : String) : Nat × Graph :=
  (g.blocks.size, { g with blocks := g.blocks.push ⟨g.blocks.size, label, [], none, []⟩ })

/-- Appends a store to a block. -/
def addStore (g : Graph) (i : Nat) (s : Store) : Graph :=
  { g with blocks := g.blocks.modify i fun b => { b with stores := b.stores ++ [s] } }

/-- Ends a block, and notes it as a predecessor of its successors. -/
def terminate (g : Graph) (i : Nat) (t : Terminator) : Except LowerError Graph :=
  match g.blocks[i]?.bind Block.term with
  | some _ => .error (.terminatedTwice (g.blockName i))
  | none =>
    let ended := g.blocks.modify i fun b => { b with term := some t }
    let noted := t.successors.foldl (fun blocks target => addPred blocks i target) ended
    .ok { g with blocks := noted }

end Graph

/-! ### Expressions -/

namespace Node

/-- The variable that a leaf names, which has to be one of the variables given. -/
def toVariable (vars : List String) (n : Node) : Except LowerError String :=
  match n.token with
  | some ⟨.ident name, _⟩ =>
    if name ∈ vars then .ok name else .error (.atNode n (.unlistedVariable name))
  | _ => .error .missingToken

/-- The operator that a leaf stands for. -/
def toOp (n : Node) : Except LowerError Op :=
  match n.rule, n.token with
  | .term, some ⟨.op symbol, _⟩ =>
    match Op.ofSymbol? symbol with
    | some op => .ok op
    | none => .error (.atNode n (.unknownOperator symbol))
  | _, _ => .error (.atNode n .notOperator)

/-- The expression that a tree stands for: an operand, or two operands and an operator between
them. -/
def toExpr (vars : List String) : Node → Except LowerError Expr
  | ⟨id, .term, token, children⟩ =>
    let n : Node := ⟨id, .term, token, children⟩
    match token with
    | none => .error .missingToken
    | some ⟨.ident _, _⟩ => (n.toVariable vars).map .load
    | some ⟨.number value, _⟩ => .ok (.const value)
    | some _ => .error (.atNode n .notExpression)
  | ⟨_, .value, _, [left, ⟨_, _, _, [operator, right]⟩]⟩ => do
    let l ← toExpr vars left
    let op ← operator.toOp
    let r ← toExpr vars right
    .ok (.binary op l r)
  | ⟨_, .value, _, [operand, ⟨_, _, _, []⟩]⟩ => toExpr vars operand
  | ⟨id, rule, token, children⟩ => .error (.atNode ⟨id, rule, token, children⟩ .notExpression)

end Node

/-! ### Statements -/

namespace Lowering

/-- Where control stands: a block, and whether it is the untouched target of a branch, which
straight-line code may still fill. -/
structure Tip where
  /-- The block. -/
  block : Nat
  /-- Whether nothing has been put into it yet. -/
  isFresh : Bool
deriving DecidableEq, Repr, Inhabited

/-- The block that straight-line code goes into: the one where control stands if it is untouched,
or else a new one behind it. -/
def openBlock (g : Graph) (tip : Tip) : Except LowerError (Nat × Graph) :=
  if tip.isFresh then .ok (tip.block, g)
  else do
    let (i, g) := g.addBlock "bb"
    let g ← g.terminate tip.block (.jump i)
    .ok (i, g)

/-- Puts assignments into a block, up to a return that ends it. -/
def fillBlock (vars : List String) (i : Nat) (g : Graph) :
    List Node → Except LowerError (Option Tip × Graph)
  | [] => .ok (some ⟨i, false⟩, g)
  | s :: rest =>
    match s.rule with
    | .assign =>
      match s.children with
      | [target, value] =>
        if target.isTerm .ident then do
          let e ← value.toExpr vars
          let name ← target.toVariable vars
          fillBlock vars i (g.addStore i ⟨name, e⟩) rest
        else .error (.atNode s .malformedAssignment)
      | _ => .error (.atNode s .malformedAssignment)
    | .ret =>
      match s.children with
      | [value] => do
        let e ← value.toExpr vars
        let g ← g.terminate i (.ret e)
        .ok (none, g)
      | _ => .error (.atNode s .malformedReturn)
    | rule => .error (.atNode s (.notInBlock rule))

/-- Lowers straight-line code. -/
def lowerBlock (vars : List String) (tip : Tip) (g : Graph) (statements : List Node) :
    Except LowerError (Option Tip × Graph) := do
  let (i, g) ← openBlock g tip
  fillBlock vars i g statements

/-- Lets control go on to a block, if it stands anywhere. -/
def join (g : Graph) (tip : Option Tip) (target : Nat) : Except LowerError Graph :=
  match tip with
  | some tip => g.terminate tip.block (.jump target)
  | none => .ok g

mutual

/-- Lowers a statement, given where control stands before it.  The result is where control stands
behind it, if anywhere, and the graph built so far. -/
def lowerStatement (vars : List String) (tip : Tip) (g : Graph) :
    Node → Except LowerError (Option Tip × Graph)
  | ⟨_, .basicBlock, _, statements⟩ => lowerBlock vars tip g statements
  | ⟨id, .assign, token, children⟩ => lowerBlock vars tip g [⟨id, .assign, token, children⟩]
  | ⟨id, .ret, token, children⟩ => lowerBlock vars tip g [⟨id, .ret, token, children⟩]
  | ⟨_, .cond, _, [test, thenBody, elseBody]⟩ => do
    let (header, g) := g.addBlock "if.cond"
    let g ← g.terminate tip.block (.jump header)
    let cond ← test.toExpr vars
    let (thenBlock, g) := g.addBlock "if.then"
    let (elseBlock, g) := g.addBlock "if.else"
    let g ← g.terminate header (.branch cond thenBlock elseBlock)
    let (thenEnd, g) ← lowerBody vars ⟨thenBlock, true⟩ g thenBody
    let (elseEnd, g) ← lowerBody vars ⟨elseBlock, true⟩ g elseBody
    let (merge, g) := g.addBlock "if.end"
    let g ← join g thenEnd merge
    let g ← join g elseEnd merge
    .ok (some ⟨merge, false⟩, g)
  | ⟨id, .cond, token, children⟩ =>
    .error (.atNode ⟨id, .cond, token, children⟩ .malformedConditional)
  | ⟨_, .loop, _, [test, body]⟩ => do
    let (header, g) := g.addBlock "while.cond"
    let g ← g.terminate tip.block (.jump header)
    let cond ← test.toExpr vars
    let (bodyBlock, g) := g.addBlock "while.body"
    let (exit, g) := g.addBlock "while.end"
    let g ← g.terminate header (.branch cond bodyBlock exit)
    let (bodyEnd, g) ← lowerBody vars ⟨bodyBlock, true⟩ g body
    let g ← join g bodyEnd header
    .ok (some ⟨exit, false⟩, g)
  | ⟨id, .loop, token, children⟩ =>
    .error (.atNode ⟨id, .loop, token, children⟩ .malformedLoop)
  | ⟨id, rule, token, children⟩ =>
    .error (.atNode ⟨id, rule, token, children⟩ (.notInSequence rule))

/-- Lowers the body of a conditional or a loop, which has to be a sequence. -/
def lowerBody (vars : List String) (tip : Tip) (g : Graph) :
    Node → Except LowerError (Option Tip × Graph)
  | ⟨_, .sequence, _, statements⟩ => lowerSequence vars tip g statements
  | ⟨id, rule, token, children⟩ =>
    .error (.atNode ⟨id, rule, token, children⟩ (.bodyNotSequence rule))

/-- Lowers statements from left to right, as long as control stands somewhere. -/
def lowerSequence (vars : List String) (tip : Tip) (g : Graph) :
    List Node → Except LowerError (Option Tip × Graph)
  | [] => .ok (some tip, g)
  | s :: rest => do
    match ← lowerStatement vars tip g s with
    | (none, g) => .ok (none, g)
    | (some tip, g) => lowerSequence vars tip g rest

end

end Lowering

namespace Graph

/-- The graph that lowering starts from: the entry alone. -/
def entryOnly (vars : List String) : Graph where
  vars := vars
  blocks := #[⟨0, "entry", [], none, []⟩]

/-- The control-flow graph of a normal tree with the given variables, among which every name of the
tree has to be. -/
def lower (vars : List String) (root : Node) : Except LowerError Graph :=
  if root.rule = .sequence then do
    let (_, g) ← Lowering.lowerSequence vars ⟨0, false⟩ (entryOnly vars) root.children
    .ok g
  else .error (.atNode root .programNotSequence)

end Graph

end BlockFlow
