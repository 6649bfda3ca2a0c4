import BlockFlow.Tree.Basic
import BlockFlow.Grammar.Recognizer

/-!
# Derivations as trees

The tree of a program follows its grammar to the letter: a sequence is empty or a pair of a wrapped
statement and the rest of the sequence, an expression is a pair of an operand and a tail, and every
token is a leaf.
-/

namespace BlockFlow

namespace Outline

/-- The leaf of a token. -/
def leaf (t : Token) : Outline :=
  ⟨.term, some t, []⟩

end Outline

namespace Expression

/-- The tree of an expression. -/
def outline (e : Expression) : Outline :=
  match e.tail with
  | none => ⟨.value, none, [.leaf e.left, ⟨.tail, none, []⟩]⟩
  | some (op, right) => ⟨.value, none, [.leaf e.left, ⟨.tail, none, [.leaf op, .leaf right]⟩]⟩

end Expression

namespace Statement

mutual

/-- The tree of a statement. -/
def outline : Statement → Outline
  | ret word value delimiter => ⟨.ret, none, [.leaf word, value.outline, .leaf delimiter]⟩
  | assign target sign value delimiter =>
    ⟨.assign, none, [.leaf target, .leaf sign, value.outline, .leaf delimiter]⟩
  | cond word test opening thenBody closing elseWord elseOpening elseBody elseClosing =>
    ⟨.cond, none,
      [.leaf word, test.outline, .leaf opening, sequenceOutline thenBody, .leaf closing,
        .leaf elseWord, .leaf elseOpening, sequenceOutline elseBody, .leaf elseClosing]⟩
  | loop word test opening body closing =>
    ⟨.loop, none,
      [.leaf word, test.outline, .leaf opening, sequenceOutline body, .leaf closing]⟩

/-- The tree of a sequence: empty, or the first statement in a wrapper and the tree of the rest. -/
def sequenceOutline : List Statement → Outline
  | [] => ⟨.sequence, none, []⟩
  | s :: rest => ⟨.sequence, none, [⟨.wrapper, none, [outline s]⟩, sequenceOutline rest]⟩

end

end Statement

/-- The tree of the program that a list of tokens spells, numbered behind the last number used, and
the last number used afterwards.  The numbers are those that would be drawn while the productions of
the grammar are read (`Grammar.parseTree_eq_ok_iff_draws`). -/
def parseTree (last : Nat) (tokens : List Token) : Except SyntaxError (Node × Nat) :=
  (parse tokens).map fun program => (Statement.sequenceOutline program).number last

end BlockFlow
