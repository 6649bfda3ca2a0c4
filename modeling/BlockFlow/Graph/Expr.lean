/-!
# Operators and expressions

Programs compute with signed 64-bit words.  Sums, differences and products wrap around, quotients
are rounded toward zero, and a comparison gives one or zero.  An expression is a constant, the value
of a variable, or an operator applied to two expressions, the left one being evaluated first.

Graphs made by hand may hold operators that are no operators of the language and places where an
expression is missing; both have a constructor, and evaluating them is an error.
-/

namespace BlockFlow

/-! ### Operators -/

/-- A binary operator. -/
inductive Op where
  | add
  | sub
  | mul
  | div
  | less
  | lessEq
  | greater
  | greaterEq
  | equal
  /-- An operator outside the language, known by its number only. -/
  | other (code : Nat)
deriving DecidableEq, Repr, Inhabited

namespace Op

/-- The operator that has a number: the nine operators of the language come first, in this
order. -/
def ofCode : Nat → Op
  | 0 => add
  | 1 => sub
  | 2 => mul
  | 3 => div
  | 4 => less
  | 5 => lessEq
  | 6 => greater
  | 7 => greaterEq
  | 8 => equal
  | code => other code

/-- The operator that a character of the source stands for. -/
def ofSymbol? : Char → Option Op
  | '+' => some add
  | '-' => some sub
  | '*' => some mul
  | '/' => some div
  | '<' => some less
  | '≤' => some lessEq
  | '>' => some greater
  | '≥' => some greaterEq
  | '=' => some equal
  | _ => none

/-- An operator as listings write it. -/
def text : Op → String
  | add => "+"
  | sub => "-"
  | mul => "*"
  | div => "/"
  | less => "<"
  | lessEq => "<="
  | greater => ">"
  | greaterEq => ">="
  | equal => "=="
  | other code => "Op(" ++ toString code ++ ")"

/-- Whether the operator is not one of the four of arithmetic. -/
def isRelational : Op → Bool
  | add | sub | mul | div => false
  | _ => true

/-- A truth value as a word. -/
def truth (b : Bool) : Int64 :=
  if b then 1 else 0

/-- Applies an operator.  There is no value for a division by zero and for an operator outside the
language. -/
def eval (op : Op) (l r : Int64) : Option Int64 :=
  match op with
  | add => some (l + r)
  | sub => some (l - r)
  | mul => some (l * r)
  | div => if r = 0 then none else some (l / r)
  | less => some (truth (l < r))
  | lessEq => some (truth (l ≤ r))
  | greater => some (truth (r < l))
  | greaterEq => some (truth (r ≤ l))
  | equal => some (truth (l == r))
  | other _ => none

end Op

/-! ### Expressions -/

/-- An expression. -/
inductive Expr where
  | const (value : Int64)
  /-- The value of a variable. -/
  | load (name : String)
  | binary (op : Op) (left right : Expr)
  /-- A place where an expression is missing. -/
  | absent
deriving DecidableEq, Repr, Inhabited

namespace Expr

/-- An expression as listings write it, without parentheses. -/
def text : Expr → String
  | const value => toString value.toInt
  | load name => "load(" ++ name ++ ")"
  | binary op left right => left.text ++ " " ++ op.text ++ " " ++ right.text
  | absent => "<nil>"

/-- The variables that an expression reads, from left to right. -/
def loads : Expr → List String
  | load name => [name]
  | binary _ left right => left.loads ++ right.loads
  | const _ | absent => []

end Expr

end BlockFlow
