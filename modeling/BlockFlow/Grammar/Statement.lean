import BlockFlow.Token

/-!
# Statements

The grammar of the language, as data.  A program is a sequence of statements; a statement keeps
every token it was read from, so that it is its own derivation:

    sequence   = { statement }
    statement  = RETURN expression DELIMITER
               | IDENT ASSIGN expression DELIMITER
               | IF expression OPEN_BRACE sequence CLOSE_BRACE ELSE OPEN_BRACE sequence CLOSE_BRACE
               | WHILE expression OPEN_BRACE sequence CLOSE_BRACE
    expression = operand [ OP operand ]
    operand    = IDENT | NUMBER

The types leave open which token stands where; that the kinds are right is what recognition
establishes.
-/

namespace BlockFlow

/-- An operand, and the operator and second operand behind it if there are any. -/
structure Expression where
  /-- The first operand. -/
  left : Token
  /-- The operator and the second operand. -/
  tail : Option (Token × Token) := none
deriving DecidableEq, Repr, Inhabited

/-- A statement with all its tokens. -/
inductive Statement where
  /-- Leaves the program with a value. -/
  | ret (word : Token) (value : Expression) (delimiter : Token)
  /-- Gives a variable a value. -/
  | assign (target sign : Token) (value : Expression) (delimiter : Token)
  /-- Executes one of two sequences. -/
  | cond (word : Token) (test : Expression) (opening : Token) (thenBody : List Statement)
      (closing elseWord elseOpening : Token) (elseBody : List Statement) (elseClosing : Token)
  /-- Executes a sequence as long as a test holds. -/
  | loop (word : Token) (test : Expression) (opening : Token) (body : List Statement)
      (closing : Token)
deriving Repr, Inhabited

end BlockFlow
