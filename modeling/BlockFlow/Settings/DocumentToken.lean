import BlockFlow.Settings.Literal
import BlockFlow.Text.Letter

/-!
# Tokens of settings documents

A settings document is cut into tokens from left to right.  Commas separate its fields, and the end
of a line stands for a comma if the line ends in something that a field can end in, unless a comma
or a colon follows on a later line.  A comment, which runs from two slashes to the end of its line,
ends the line there and then.
-/

namespace BlockFlow

/-- A token of a document. -/
inductive DocumentToken where
  /-- A word without quotes. -/
  | word (name : String)
  /-- A text in quotes. -/
  | text (value : String)
  /-- A number without sign. -/
  | number (value : NumberLiteral)
  | minus
  | plus
  | colon
  | comma
  | openBrace
  | closeBrace
  | openBracket
  | closeBracket
deriving DecidableEq, Repr, Inhabited

namespace DocumentToken

/-- Whether a field can end in the token, so that the end of its line stands for a comma. -/
def endsField : DocumentToken → Bool
  | word _ => true
  | text _ => true
  | number _ => true
  | closeBrace => true
  | closeBracket => true
  | _ => false

/-- Whether the character can begin a word. -/
def opensWord (c : Char) : Bool :=
  Text.isLetter c || c == '_' || c == '$' || c == '#'

/-- Whether the character can stand in a word behind its first character. -/
def continuesWord (c : Char) : Bool :=
  Text.isLetter c || c == '_' || c == '$' || Text.isDecimalDigit c

/-- The rest of a word behind its first character, and what follows it.  Only an underscore may have
a number sign behind it. -/
def wordSpan (first : Char) : List Char → List Char × List Char
  | '#' :: cs =>
    if first == '_' then ('#' :: cs.takeWhile continuesWord, cs.dropWhile continuesWord)
    else ([], '#' :: cs)
  | cs => (cs.takeWhile continuesWord, cs.dropWhile continuesWord)

/-- Whether a word is a number sign without a letter behind it, which names nothing. -/
def isBareSign (name : List Char) : Bool :=
  match name.dropWhile (· == '_') with
  | '#' :: rest => !(rest.head?.any fun c => opensWord c)
  | _ => false

/-- The token of a punctuation character. -/
def punctuation? : Char → Option DocumentToken
  | '-' => some minus
  | '+' => some plus
  | ':' => some colon
  | ',' => some comma
  | '\x7b' => some openBrace
  | '\x7d' => some closeBrace
  | '[' => some openBracket
  | ']' => some closeBracket
  | _ => none

/-- Whether the character is blank. -/
def isSpace (c : Char) : Bool :=
  c == ' ' || c == '\t' || c == '\r' || c == '\n'

/-- Whether the text goes on with a token that the end of a line does not separate from what stands
before it. -/
def joinsLine (cs : List Char) : Bool :=
  cs.head? == some ',' || cs.head? == some ':'

/-- Whether a number begins with the character, given what follows it. -/
def opensNumber (c : Char) (rest : List Char) : Bool :=
  c.isDigit || (c == '.' && rest.head?.any Char.isDigit)

theorem length_wordSpan_le (first : Char) (cs : List Char) :
    (wordSpan first cs).2.length ≤ cs.length := by
  unfold wordSpan
  split
  · split
    · exact Nat.le_succ_of_le (List.dropWhile_suffix _).length_le
    · exact Nat.le_refl _
  · exact (List.dropWhile_suffix _).length_le

/-- The tokens of a text.  `mayEnd` says whether a field can end in the last token. -/
def scan (mayEnd : Bool) (cs : List Char) : Option (List DocumentToken) :=
  match cs with
  | [] => some (if mayEnd then [comma] else [])
  | '\n' :: rest =>
    if mayEnd && !joinsLine (rest.dropWhile isSpace) then
      (scan false (rest.dropWhile isSpace)).map (comma :: ·)
    else scan false (rest.dropWhile isSpace)
  | '/' :: '/' :: rest =>
    if mayEnd then (scan false (rest.dropWhile (· != '\n'))).map (comma :: ·)
    else scan false (rest.dropWhile (· != '\n'))
  | '"' :: rest =>
    match h : QuotedLiteral.read? .plain rest with
    | some (value, rest') =>
      have := QuotedLiteral.length_read?_lt h
      (scan true rest').map (text (String.ofList value) :: ·)
    | none => none
  | c :: rest =>
    if isSpace c then scan mayEnd rest
    else if opensWord c then
      if isBareSign (c :: (wordSpan c rest).1) then none
      else
        (scan true (wordSpan c rest).2).map (word (String.ofList (c :: (wordSpan c rest).1)) :: ·)
    else if opensNumber c rest then
      match NumberLiteral.read? (c :: (NumberLiteral.span c rest).1) with
      | some value => (scan true (NumberLiteral.span c rest).2).map (number value :: ·)
      | none => none
    else match punctuation? c with
      | some token => (scan token.endsField rest).map (token :: ·)
      | none => none
termination_by cs.length
decreasing_by
  all_goals
    try have h1 := (List.dropWhile_suffix (l := rest) (· != '\n')).length_le
    try have h2 := (List.dropWhile_suffix (l := rest) isSpace).length_le
    try have h3 := length_wordSpan_le c rest
    try have h4 := NumberLiteral.length_span_le c rest
    simp only [List.length_cons] at *
    omega

/-- The tokens of a whole text.  A mark of the byte order may stand before it, and neither that mark
nor the null character elsewhere. -/
def ofText? (cs : List Char) : Option (List DocumentToken) :=
  let cs := match cs with
    | '\ufeff' :: rest => rest
    | _ => cs
  if cs.contains '\ufeff' || cs.contains '\x00' then none else scan false cs

end DocumentToken

end BlockFlow
