import BlockFlow.Token

/-!
# Trees

A program is held as a tree whose nodes are numbered.  A node has a rule, which says what it stands
for, a token if it is a leaf of the source, and children.  An `Outline` is a tree that has not been
numbered yet.

Numbers are given out in post-order: the children of a node from left to right, each with everything
below it, then the node itself.  Numbering starts behind a last number used, and returns the last
number used afterwards, so that further nodes can continue the count.

Nothing ties the rule of a node to its token and children.  Trees made by hand may have any shape,
and every function on trees gives some answer on all of them.
-/

namespace BlockFlow

/-! ### Rules -/

/-- What a node of a tree stands for. -/
inductive Rule where
  /-- A sequence of statements. -/
  | sequence
  /-- A statement at the front of a sequence that is not flat yet. -/
  | wrapper
  | ret
  | assign
  | cond
  | loop
  /-- An expression: an operand and a tail. -/
  | value
  /-- The tail of an expression: empty, or an operator and an operand. -/
  | tail
  /-- A leaf of the source. -/
  | term
  /-- A run of statements without branches. -/
  | basicBlock
  /-- A rule outside the language, known by its number only. -/
  | other (code : Nat)
deriving DecidableEq, Repr, Inhabited

namespace Rule

/-- The rule that has a number: the ten rules of the language come first, in this order. -/
def ofCode : Nat → Rule
  | 0 => sequence
  | 1 => wrapper
  | 2 => ret
  | 3 => assign
  | 4 => cond
  | 5 => loop
  | 6 => value
  | 7 => tail
  | 8 => term
  | 9 => basicBlock
  | code => other code

/-- The name of a rule, as diagnostics and drawings write it. -/
def name : Rule → String
  | sequence => "S"
  | wrapper => "EXPR"
  | ret => "RETURN"
  | assign => "ASSIGN"
  | cond => "IF"
  | loop => "WHILE"
  | value => "RVAL"
  | tail => "OPVAL"
  | term => "TERM"
  | basicBlock => "BB"
  | other code => "Rule(" ++ toString code ++ ")"

/-- Whether nodes of the rule may stand directly in a flat sequence. -/
def isStatement : Rule → Bool
  | ret | assign | cond | loop | basicBlock => true
  | _ => false

end Rule

/-! ### Outlines and nodes -/

/-- A tree without numbers. -/
structure Outline where
  /-- What the root stands for. -/
  rule : Rule
  /-- The token of a leaf. -/
  token : Option Token := none
  /-- The subtrees, from left to right. -/
  children : List Outline := []
deriving Repr, Inhabited

/-- A tree with numbered nodes. -/
structure Node where
  /-- The number of the root. -/
  id : Nat
  /-- What the root stands for. -/
  rule : Rule
  /-- The token of a leaf. -/
  token : Option Token
  /-- The subtrees, from left to right. -/
  children : List Node
deriving Repr, Inhabited

mutual

/-- Numbers a tree in post-order behind the last number used, and gives the last number used
afterwards. -/
def Outline.number (last : Nat) : Outline → Node × Nat
  | ⟨rule, token, children⟩ =>
    let (numbered, last) := Outline.numberAll last children
    (⟨last + 1, rule, token, numbered⟩, last + 1)

/-- Numbers trees from left to right. -/
def Outline.numberAll (last : Nat) : List Outline → List Node × Nat
  | [] => ([], last)
  | child :: rest =>
    let (first, last) := child.number last
    let (others, last) := Outline.numberAll last rest
    (first :: others, last)

end

namespace Node

/-- What holds of every tree that has it below itself holds of all trees. -/
theorem induct {P : Node → Prop} (node : ∀ n : Node, (∀ c ∈ n.children, P c) → P n) (n : Node) :
    P n :=
  node n fun c _ => induct node c
termination_by n
decreasing_by
  obtain ⟨id, rule, token, children⟩ := n
  have hlt : sizeOf c < sizeOf children := List.sizeOf_lt_of_mem ‹c ∈ _›
  simp only [mk.sizeOf_spec]
  omega

/-- The kind of the token of a leaf of the source. -/
def kind? (n : Node) : Option Kind :=
  if n.rule = .term then n.token.map Token.kind else none

/-- Whether the node is a leaf of the source with a token of the kind. -/
def isTerm (n : Node) (kind : Kind) : Bool :=
  n.kind? = some kind

/-- What a node is called in diagnostics and drawings: its token if it has one, or else its rule. -/
def label (n : Node) : String :=
  match n.token with
  | some t => t.text
  | none => n.rule.name

/-- The node without its children. -/
def leaf (n : Node) : Node :=
  ⟨n.id, n.rule, n.token, []⟩

/-! ### Visiting -/

mutual

/-- The nodes of a tree, each before its children and with its parent.  The children of a node are
left out when `enters` refuses it. -/
def visits (enters : Node → Bool) (parent : Option Node) : Node → List (Node × Option Node)
  | ⟨id, rule, token, children⟩ =>
    let n : Node := ⟨id, rule, token, children⟩
    (n, parent) :: if enters n then visitsAll enters n children else []

/-- The nodes of the children of a node, from left to right. -/
def visitsAll (enters : Node → Bool) (parent : Node) : List Node → List (Node × Option Node)
  | [] => []
  | child :: rest => visits enters (some parent) child ++ visitsAll enters parent rest

end

/-- The nodes of a tree, each before its children. -/
def preorder (n : Node) : List Node :=
  (n.visits (fun _ => true) none).map Prod.fst

/-- How many nodes of a tree have the rule. -/
def count (rule : Rule) (n : Node) : Nat :=
  n.preorder.countP fun m => m.rule = rule

/-- The name that a leaf of the source spells. -/
def ident? (n : Node) : Option String :=
  if n.rule = .term then
    match n.token with
    | some ⟨.ident name, _⟩ => some name
    | _ => none
  else none

/-- Puts a name into its place in a list of names that increase, unless it is there already. -/
def insertName (name : String) : List String → List String
  | [] => [name]
  | first :: rest =>
    if name < first then name :: first :: rest
    else if name = first then first :: rest
    else first :: insertName name rest

/-- The names that occur in a tree, each once and in increasing order. -/
def names (n : Node) : List String :=
  (n.preorder.filterMap ident?).foldr insertName []

end Node

end BlockFlow
