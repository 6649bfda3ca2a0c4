import BlockFlow.Tree.Basic
import BlockFlow.Text.Quoted
import BlockFlow.Drawing

/-!
# Trees as text

A tree has a short text, in which a leaf is what its token carries and an inner node a list in
parentheses that begins with the name of its rule, and a drawing, in which every node shows its
number and its label and every edge the numbers of its ends.
-/

namespace BlockFlow.Node

mutual

/-- The short text of a tree.  A node with a token shows nothing but the token. -/
def text : Node → String
  | ⟨_, rule, token, children⟩ =>
    match token with
    | some t => if t.payload = "" then t.kind.name else t.payload
    | none => "(" ++ rule.name ++ textAll children ++ ")"

/-- The short texts of trees, each behind a space. -/
def textAll : List Node → String
  | [] => ""
  | child :: rest => " " ++ text child ++ textAll rest

end

/-- The write that shows one node. -/
def drawn (n : Node) : String :=
  toString n.id ++ " [label=" ++ Text.quote n.label ++ "]\n"

mutual

/-- The writes that show a tree: its root, then for each child the edge to it and the child. -/
def draw : Node → Drawing
  | ⟨id, rule, token, children⟩ => drawn ⟨id, rule, token, children⟩ :: drawAll id children

/-- The writes that show the children of a numbered node. -/
def drawAll (parent : Nat) : List Node → Drawing
  | [] => []
  | child :: rest => Drawing.edge parent child.id :: draw child ++ drawAll parent rest

end

/-- The drawing of a tree. -/
def drawing (n : Node) : Drawing :=
  "digraph G \x7b\n" :: draw n ++ [Drawing.footer]

end BlockFlow.Node
