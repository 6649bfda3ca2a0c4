import BlockFlow.Position

/-!
# Tokens

A token is a lexeme together with the stretch of source text it was read from.  A lexeme is what
the token says: a number, a name, an operator, or one of the fixed words and marks of the language.
Its kind is the same without what it carries; the grammar speaks of kinds only.

Tokens can also come from elsewhere than a source text.  A lexeme of a kind that the language does
not know (`other`) is therefore a lexeme like any other: no sentence of the grammar holds one.
-/

namespace BlockFlow

/-! ### Kinds -/

/-- The kind of a token. -/
inductive Kind where
  | number
  | ident
  | op
  | assign
  | ifWord
  | elseWord
  | whileWord
  | returnWord
  | openBrace
  | closeBrace
  | delimiter
  | eof
  /-- A kind outside the language, known by its number only. -/
  | other (code : Nat)
deriving DecidableEq, Repr, Inhabited

namespace Kind

/-- The kind that has a number: the twelve kinds of the language come first, in this order. -/
def ofCode : Nat → Kind
  | 0 => number
  | 1 => ident
  | 2 => op
  | 3 => assign
  | 4 => ifWord
  | 5 => elseWord
  | 6 => whileWord
  | 7 => returnWord
  | 8 => openBrace
  | 9 => closeBrace
  | 10 => delimiter
  | 11 => eof
  | code => other code

/-- The name of a kind, as diagnostics write it. -/
def name : Kind → String
  | number => "NUMBER"
  | ident => "IDENT"
  | op => "OP"
  | assign => "ASSIGN"
  | ifWord => "IF"
  | elseWord => "ELSE"
  | whileWord => "WHILE"
  | returnWord => "RETURN"
  | openBrace => "OPEN_BRACE"
  | closeBrace => "CLOSE_BRACE"
  | delimiter => "DELIMITER"
  | eof => "EOF"
  | other code => "Kind(" ++ toString code ++ ")"

/-- Whether a statement can begin with a token of this kind. -/
def startsStatement : Kind → Bool
  | returnWord | ident | ifWord | whileWord => true
  | _ => false

/-- Whether tokens of this kind only give a tree its shape and say nothing once it stands. -/
def isNoise : Kind → Bool
  | openBrace | closeBrace | ifWord | whileWord | returnWord | elseWord | delimiter | assign => true
  | _ => false

end Kind

/-! ### Lexemes -/

/-- What a token says. -/
inductive Lexeme where
  | number (value : Int64)
  | ident (name : String)
  /-- An operator, by the one character that stands for it; the two-character spellings of the
  language have a single character too. -/
  | op (symbol : Char)
  | assign
  | ifWord
  | elseWord
  | whileWord
  | returnWord
  | openBrace
  | closeBrace
  | delimiter
  | eof
  /-- A lexeme of a kind outside the language. -/
  | other (code : Nat)
deriving DecidableEq, Repr

namespace Lexeme

instance : Inhabited Lexeme := ⟨number 0⟩

/-- The kind of a lexeme. -/
def kind : Lexeme → Kind
  | number _ => .number
  | ident _ => .ident
  | op _ => .op
  | assign => .assign
  | ifWord => .ifWord
  | elseWord => .elseWord
  | whileWord => .whileWord
  | returnWord => .returnWord
  | openBrace => .openBrace
  | closeBrace => .closeBrace
  | delimiter => .delimiter
  | eof => .eof
  | other code => .other code

/-- What the lexeme carries beside its kind, as text; empty when it carries nothing. -/
def payload : Lexeme → String
  | number value => toString value.toInt
  | ident name => name
  | op symbol => symbol.toString
  | _ => ""

/-- The lexeme of a word: one of the four reserved words, or a name. -/
def ofWord (word : String) : Lexeme :=
  if word = "if" then ifWord
  else if word = "else" then elseWord
  else if word = "while" then whileWord
  else if word = "return" then returnWord
  else ident word

/-- The lexeme of a kind given the number, the name and the symbol that it would carry.  A kind
that carries nothing takes none of them. -/
def ofKind (kind : Kind) (value : Int64) (name : String) (symbol : Char) : Lexeme :=
  match kind with
  | .number => number value
  | .ident => ident name
  | .op => op symbol
  | .assign => assign
  | .ifWord => ifWord
  | .elseWord => elseWord
  | .whileWord => whileWord
  | .returnWord => returnWord
  | .openBrace => openBrace
  | .closeBrace => closeBrace
  | .delimiter => delimiter
  | .eof => eof
  | .other code => other code

end Lexeme

/-- The character with a code point; a number that is no code point reads as the replacement
character. -/
def symbolOfCode (code : Int) : Char :=
  if 0 ≤ code ∧ code.toNat.isValidChar then Char.ofNat code.toNat else '\uFFFD'

/-! ### Tokens -/

/-- A lexeme and where it stands. -/
structure Token where
  /-- What the token says. -/
  lexeme : Lexeme := default
  /-- The stretch of source text it was read from. -/
  span : Span := {}
deriving DecidableEq, Repr, Inhabited

namespace Token

/-- The kind of a token. -/
def kind (t : Token) : Kind :=
  t.lexeme.kind

/-- What the token carries beside its kind, as text. -/
def payload (t : Token) : String :=
  t.lexeme.payload

/-- The token as diagnostics write it: kind, payload if there is one, and span. -/
def text (t : Token) : String :=
  if t.payload = "" then t.kind.name ++ " at " ++ t.span.text
  else t.kind.name ++ "(" ++ t.payload ++ ") at " ++ t.span.text

end Token

end BlockFlow
