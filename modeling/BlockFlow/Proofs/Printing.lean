import BlockFlow.Graph.Listing
import BlockFlow.Proofs.Tree.Leaves
import BlockFlow.Ssa.Listing
import BlockFlow.Tree.Text

/-!
# Drawings cut short

A drawing is a list of writes, but a printer does not begin with the list.  It goes through a tree
or a graph and writes on the way; when a write fails it keeps the error, and goes on to the end
without writing anything more.  Here pictures are printed in this way (`Picture.render`), on
anything that takes writes, and shown to put there what their lists say
(`Picture.render_eq_foldl`).

A place that accepts some writes and then fails (`Sheet`) so gets the first writes of the list, as
many as it accepts, is offered one more if there is one, and its error comes back in this case and
in no other (`Printer.foldl_print`).
-/

namespace BlockFlow

/-! ### Printers -/

/-- A place to write to, and the error of the first write that failed. -/
structure Printer (σ ε : Type) where
  /-- The place. -/
  place : σ
  /-- The error. -/
  error : Option ε := none
deriving DecidableEq, Repr

/-- A place that accepts a number of writes and then fails. -/
structure Sheet where
  /-- How many more writes are accepted. -/
  left : Nat
  /-- The text accepted so far. -/
  text : String := ""
  /-- The writes offered so far, whether accepted or not. -/
  offered : List String := []
deriving DecidableEq, Repr

variable {σ ε π : Type}

/-- Offers a write to a sheet, which fails with the given error if it accepts no more. -/
def Sheet.write (e : ε) (s : Sheet) (text : String) : Sheet × Option ε :=
  match s.left with
  | 0 => (⟨0, s.text, s.offered ++ [text]⟩, some e)
  | n + 1 => (⟨n, s.text ++ text, s.offered ++ [text]⟩, none)

namespace Printer

/-- Prints a text, unless something has failed before. -/
def print (write : σ → String → σ × Option ε) (p : Printer σ ε) (text : String) : Printer σ ε :=
  match p.error with
  | none =>
    let (place, error) := write p.place text
    ⟨place, error⟩
  | some _ => p

/-- What is printed after a failure goes nowhere. -/
theorem foldl_print_of_error {write : σ → String → σ × Option ε} {p : Printer σ ε} {e : ε}
    (h : p.error = some e) (writes : List String) : writes.foldl (print write) p = p := by
  induction writes with
  | nil => rfl
  | cons text rest ih =>
    have hskip : print write p text = p := by
      rw [print, h]
    rw [List.foldl_cons, hskip, ih]

/-- **Printing on a sheet:** it gets as many writes as it accepts and is offered one more, and its
error is kept if there is one more. -/
theorem foldl_print (e : ε) (writes : List String) (n : Nat) (text : String)
    (offered : List String) : writes.foldl (print (Sheet.write e)) ⟨⟨n, text, offered⟩, none⟩ =
      ⟨⟨n - writes.length, text ++ String.join (writes.take n), offered ++ writes.take (n + 1)⟩,
        if n < writes.length then some e else none⟩ := by
  induction writes generalizing n text offered with
  | nil => simp
  | cons first rest ih =>
    cases n with
    | zero =>
      have hfails : print (Sheet.write e) ⟨⟨0, text, offered⟩, none⟩ first =
          ⟨⟨0, text, offered ++ [first]⟩, some e⟩ := rfl
      rw [List.foldl_cons, hfails, foldl_print_of_error rfl]
      simp
    | succ n =>
      have haccepts : print (Sheet.write e) ⟨⟨n + 1, text, offered⟩, none⟩ first =
          ⟨⟨n, text ++ first, offered ++ [first]⟩, none⟩ := rfl
      rw [List.foldl_cons, haccepts, ih]
      simp [String.append_assoc]

/-- A printer as a writer that knows only how many writes it was offered. -/
def toWriter (p : Printer Sheet ε) : Writer :=
  ⟨p.place.left, p.place.text, p.place.offered.length, p.error.isSome⟩

theorem write_toWriter (e : ε) (p : Printer Sheet ε) (text : String) :
    p.toWriter.write text = (print (Sheet.write e) p text).toWriter := by
  obtain ⟨⟨left, accepted, offered⟩, error⟩ := p
  cases error with
  | some _ => rfl
  | none =>
    cases left with
    | zero => simp [toWriter, Writer.write, print, Sheet.write]
    | succ left => simp [toWriter, Writer.write, print, Sheet.write]

end Printer

/-! ### Rendering -/

namespace Node

mutual

/-- Puts a tree on something: its root, then for each child the edge to it and the child. -/
def renderNode (put : π → String → π) (p : π) : Node → π
  | ⟨id, rule, token, children⟩ =>
    renderChildren put id (put p (drawn ⟨id, rule, token, children⟩)) children

/-- Puts the children of a numbered node on something. -/
def renderChildren (put : π → String → π) (parent : Nat) (p : π) : List Node → π
  | [] => p
  | child :: rest =>
    renderChildren put parent (renderNode put (put p (Drawing.edge parent child.id)) child) rest

end

/-- Puts the drawing of a tree on something. -/
def render (put : π → String → π) (p : π) (root : Node) : π :=
  put (renderNode put (put p "digraph G \x7b\n") root) Drawing.footer

variable (put : π → String → π)

theorem renderChildren_eq_foldl (parent : Nat) (children : List Node)
    (h : ∀ c ∈ children, ∀ p, renderNode put p c = c.draw.foldl put p) (p : π) :
    renderChildren put parent p children = (drawAll parent children).foldl put p := by
  induction children generalizing p with
  | nil => rfl
  | cons c rest ih =>
    obtain ⟨hc, hrest⟩ := List.forall_mem_cons.mp h
    rw [renderChildren, ih hrest, hc, drawAll, List.cons_append, List.foldl_cons,
      List.foldl_append]

theorem renderNode_eq_foldl (n : Node) (p : π) : renderNode put p n = n.draw.foldl put p := by
  induction n using induct generalizing p with | node n ih
  obtain ⟨id, rule, token, children⟩ := n
  rw [renderNode, renderChildren_eq_foldl put id children ih, draw, List.foldl_cons]

theorem length_drawAll (parent : Nat) (children : List Node)
    (h : ∀ c ∈ children, c.draw.length + 1 = 2 * c.preorder.length) :
    (drawAll parent children).length = 2 * (children.flatMap preorder).length := by
  induction children with
  | nil => rfl
  | cons c rest ih =>
    obtain ⟨hc, hrest⟩ := List.forall_mem_cons.mp h
    have hlength := ih hrest
    rw [drawAll, List.flatMap_cons, List.cons_append, List.length_cons, List.length_append,
      List.length_append]
    omega

/-- Every node is drawn with one write, and so is the edge to it, unless it is the root. -/
theorem length_draw (n : Node) : n.draw.length + 1 = 2 * n.preorder.length := by
  induction n using induct with | node n ih
  obtain ⟨id, rule, token, children⟩ := n
  have hchildren := length_drawAll id children ih
  rw [draw, preorder_mk, List.length_cons, List.length_cons]
  omega

theorem length_drawing (n : Node) : n.drawing.length = 2 * n.preorder.length + 1 := by
  have hdraw := n.length_draw
  rw [drawing, List.cons_append, List.length_cons, List.length_append, List.length_singleton]
  omega

end Node

/-- Puts the drawing of a graph on something: the blocks, then the branches. -/
def Graph.render (put : π → String → π) (p : π) (g : Graph) : π :=
  let p := put p Drawing.rectangleHeader
  let p := g.blocks.foldl
    (fun p b => put p (Drawing.rectangle b.id ((b.name ++ ":") :: g.lines b))) p
  let p := g.edges.foldl (fun p e => put p (Drawing.edge e.1 e.2)) p
  put p Drawing.footer

/-- Puts the drawing of a function on something: the blocks, then for each block the branches to its
successors. -/
def SsaFunction.render (put : π → String → π) (p : π) (f : SsaFunction) : π :=
  let p := put p Drawing.rectangleHeader
  let p := f.blocks.foldl
    (fun p b => put p (Drawing.rectangle b.id ((b.name ++ ":") :: b.lines))) p
  let p := f.blocks.foldl (fun p b => b.succs.foldl (fun p s =>
    match f.blocks[s]? with
    | some target => put p (Drawing.edge b.id target.id)
    | none => p) p) p
  put p Drawing.footer

/-! ### Pictures -/

/-- What can be drawn. -/
inductive Picture where
  | tree (root : Node)
  | graph (g : Graph)
  | function (f : SsaFunction)

namespace Picture

/-- The list of the writes of a picture. -/
def drawing : Picture → Drawing
  | tree root => root.drawing
  | graph g => g.drawing
  | function f => f.drawing

/-- Puts the drawing of a picture on something, write by write. -/
def render (put : π → String → π) (p : π) : Picture → π
  | tree root => root.render put p
  | graph g => g.render put p
  | function f => f.render put p

/-- **Rendering puts the writes of the drawing,** in order and nothing else. -/
theorem render_eq_foldl (put : π → String → π) (p : π) (picture : Picture) :
    picture.render put p = picture.drawing.foldl put p := by
  cases picture with
  | tree root =>
    rw [render, drawing, Node.render, Node.drawing, Node.renderNode_eq_foldl, List.cons_append,
      List.foldl_cons, List.foldl_append]
    rfl
  | graph g =>
    simp only [render, drawing, Graph.render, Graph.drawing, List.cons_append, List.foldl_cons,
      List.foldl_append, List.foldl_map, List.foldl_nil, Array.foldl_toList]
  | function f =>
    simp only [render, drawing, SsaFunction.render, SsaFunction.drawing, SsaFunction.edges,
      List.cons_append, List.foldl_cons, List.foldl_append, List.foldl_map, List.foldl_nil,
      List.foldl_flatMap, List.foldl_filterMap, Array.foldl_toList]
    congr
    funext p b
    congr
    funext p s
    cases f.blocks[s]? with
    | none => rfl
    | some target => rfl

/-- The writes that something which never fails is given. -/
theorem render_append (picture : Picture) :
    picture.render (fun writes text => writes ++ [text]) [] = picture.drawing := by
  rw [render_eq_foldl, List.foldl_append_eq_append, List.nil_append, ← List.flatMap_def,
    List.flatMap_singleton']

/-- **A failing place gets an exact part of a drawing.**  Let `writes` be the writes of a picture
that are given to something which never fails, and let the picture be printed on a sheet that
accepts `n` writes and then fails with `e`.

* The text on the sheet is that of the first `n` writes.
* The sheet was offered these and the one it failed at, but none after it.
* The error comes back if there are more than `n` writes, and otherwise none does.

The writes are those of the drawing, and offering the drawing to a writer does the same.  For a tree
they are two for every node, and one. -/
theorem printed_exactly (picture : Picture) (e : ε) (n : Nat) :
    let writes := picture.render (fun writes text => writes ++ [text]) []
    let printed := picture.render (Printer.print (Sheet.write e)) ⟨⟨n, "", []⟩, none⟩
    printed.place.text = String.join (writes.take n) ∧
      printed.place.offered = writes.take (n + 1) ∧
      printed.error = (if n < writes.length then some e else none) ∧
      writes = picture.drawing ∧
      Drawing.writeTo ⟨n, "", 0, false⟩ picture.drawing = printed.toWriter ∧
      ∀ root : Node, (tree root).drawing.length = 2 * root.preorder.length + 1 := by
  intro writes printed
  have hwrites : writes = picture.drawing := picture.render_append
  have hprinted : printed = _ :=
    (picture.render_eq_foldl _ _).trans (Printer.foldl_print e picture.drawing n "" [])
  have hwriter : Drawing.writeTo ⟨n, "", 0, false⟩ picture.drawing = printed.toWriter := by
    have hstart : (⟨n, "", 0, false⟩ : Writer) =
        (⟨⟨n, "", []⟩, none⟩ : Printer Sheet ε).toWriter := rfl
    rw [hstart, Drawing.writeTo, List.foldl_hom _ (Printer.write_toWriter e)]
    exact congrArg Printer.toWriter (picture.render_eq_foldl _ _).symm
  rw [hwrites]
  refine ⟨?_, ?_, ?_, rfl, hwriter, Node.length_drawing⟩
  · rw [hprinted, String.empty_append]
  · rw [hprinted, List.nil_append]
  · rw [hprinted]

end Picture

end BlockFlow
