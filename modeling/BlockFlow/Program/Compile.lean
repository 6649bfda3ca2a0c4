import BlockFlow.Graph.Folding
import BlockFlow.Log.Logged
import BlockFlow.Program.Basic

/-!
# Compiling

Compiling takes a program from its text to its graph, one stage after the other, and stops at the
first stage that fails.  A record is made for every stage that was reached.

The settings matter in two ways: under the mode that shows the tree of the grammar nothing behind it
is made, and constants are folded only on demand.
-/

namespace BlockFlow

namespace Program

/-- The record of a stage that was reached, with what it amounts to and the time it took. -/
def stageRecord (stage : String) (sizes : List (String × Nat)) : LogRecord :=
  .debug stage
    ((sizes.map fun (name, size) => ⟨name, .number size⟩) ++ [⟨"took", .elapsed⟩])

/-- The normal tree of a tree, which has to have the normal shape, with the last number used before
and after. -/
def normalTree (tree : Node × Nat) : Except CompileError (Node × Nat) :=
  match (normalize tree).1.checkShape with
  | some e => .error (.shape e)
  | none => .ok (normalize tree)

/-- Takes a tree of the grammar through the later stages. -/
def lower (optimize : Bool) (tree : Node × Nat) : Logged CompileError Lowered := do
  let (ast, last) ← .silent (normalTree tree)
  .note (stageRecord "normalized" [("nodes", last)])
  let graph ← .silent ((Graph.lower ast.names ast).mapError .lowering)
  .note (stageRecord "lowered" [("blocks", graph.blocks.size), ("vars", graph.vars.length)])
  if optimize then
    .note (.debug "optimized" [⟨"folded", .number graph.foldCount⟩])
    return ⟨ast, graph.folded⟩
  return ⟨ast, graph⟩

/-- Compiles tokens, which come from a text or stand for themselves. -/
def compileFrom (settings : Settings) (source : List UInt8) (tokens : List Token) :
    Logged CompileError Program := do
  let tree ← .silent ((parseTree 0 tokens).mapError .grammar)
  .note (stageRecord "parsed" [("nodes", tree.2)])
  if settings.mode = Stage.parse.name then return ⟨source, tokens, tree.1, none⟩
  let later ← lower settings.optimize tree
  return ⟨source, tokens, tree.1, some later⟩

/-- Compiles a list of tokens that did not come from a text. -/
def compileTokens (tokens : List Token) : Logged CompileError Program :=
  compileFrom {} [] tokens

/-- Compiles a text. -/
def compile (settings : Settings) (source : List UInt8) : Logged CompileError Program := do
  let tokens ← .silent ((scan source).mapError .scanning)
  .note (stageRecord "scanned" [("tokens", tokens.length)])
  compileFrom settings source tokens

end Program

end BlockFlow
