import BlockFlow.Token
import BlockFlow.Text.Quoted
import BlockFlow.Text.Utf8

/-!
# Reading tokens from source text

A source text is a list of bytes.  A `Scanner` is a place in it: the bytes still to be read and the
position of the first of them.  `Scanner.next` skips blanks and comments and reads one token, and
`scan` reads tokens up to and including the end marker.

A token is read in two moves.  Its first byte picks one of the four token classes and a slice of
the text that is certain to hold the whole token (`candidate?`); the class then takes the longest
stretch it can from the front of that slice (`TokenClass.spelling`).

Reading can fail in two ways.  A character that begins no token is not consumed, so asking again
fails again; a number beyond the largest 63-bit value is consumed with all its digits.
-/

namespace BlockFlow

/-! ### Bytes -/

/-- Whether the byte is a decimal digit. -/
def isDigitByte (b : UInt8) : Bool :=
  '0'.toUInt8 ≤ b && b ≤ '9'.toUInt8

/-- Whether the byte is a letter of ASCII or the underscore. -/
def isLetterByte (b : UInt8) : Bool :=
  ('a'.toUInt8 ≤ b && b ≤ 'z'.toUInt8) || ('A'.toUInt8 ≤ b && b ≤ 'Z'.toUInt8) || b == '_'.toUInt8

/-- Whether the byte can stand in a word behind its first byte. -/
def isWordByte (b : UInt8) : Bool :=
  isLetterByte b || isDigitByte b

/-- Whether the byte separates tokens. -/
def isBlankByte (b : UInt8) : Bool :=
  b == ' '.toUInt8 || b == '\t'.toUInt8 || b == '\r'.toUInt8 || b == '\n'.toUInt8

/-- Bytes of ASCII text as a string. -/
def textOfBytes (bytes : List UInt8) : String :=
  String.ofList (bytes.map Char.ofUInt8)

/-! ### Token classes -/

/-- The spellings of the operators and the character each stands for.  Where one spelling begins
another, the longer one comes first. -/
def operatorSpellings : List (List UInt8 × Char) :=
  [(['<'.toUInt8, '='.toUInt8], '≤'),
   (['>'.toUInt8, '='.toUInt8], '≥'),
   (['='.toUInt8, '='.toUInt8], '='),
   (['-'.toUInt8], '-'),
   (['+'.toUInt8], '+'),
   (['*'.toUInt8], '*'),
   (['/'.toUInt8], '/'),
   (['<'.toUInt8], '<'),
   (['>'.toUInt8], '>'),
   ([0xe2, 0x89, 0xa4], '≤'),
   ([0xe2, 0x89, 0xa5], '≥')]

/-- The spelling of an operator at the front of a text, with the character it stands for. -/
def operatorAt? (text : List UInt8) : Option (List UInt8 × Char) :=
  operatorSpellings.find? fun entry => entry.1.isPrefixOf text

/-- The lexeme of a punctuation byte. -/
def punctuation? (b : UInt8) : Option Lexeme :=
  if b == '='.toUInt8 then some .assign
  else if b == '\x7b'.toUInt8 then some .openBrace
  else if b == '\x7d'.toUInt8 then some .closeBrace
  else if b == ';'.toUInt8 then some .delimiter
  else none

/-- The four classes of tokens. -/
inductive TokenClass where
  | number
  | word
  | operator
  | punctuation
deriving DecidableEq, Repr, Inhabited

/-- Why no token could be read. -/
inductive ScanFault where
  /-- No token begins with this character. -/
  | unexpected (character : Char)
  /-- The digits stand for a number that does not fit. -/
  | tooLarge (digits : String)
deriving DecidableEq, Repr, Inhabited

namespace TokenClass

/-- The longest stretch at the front of a text that spells a token of the class; empty when the
text begins with none.  With the classes given as regular expressions, nothing else can be meant by
this: whatever takes the longest match of a class's expression takes the same
(`TokenClass.longest?_pattern`, `TokenClass.eq_spelling`). -/
def spelling : TokenClass → List UInt8 → List UInt8
  | number, text => text.takeWhile isDigitByte
  | word, [] => []
  | word, b :: rest => if isLetterByte b then b :: rest.takeWhile isWordByte else []
  | operator, text =>
    match operatorAt? text with
    | some (spelt, _) => spelt
    | none => []
  | punctuation, [] => []
  | punctuation, b :: _ => if (punctuation? b).isSome then [b] else []

/-- The value of decimal digits. -/
def decimalValue (digits : List UInt8) : Nat :=
  digits.foldl (fun n b => 10 * n + (b.toNat - '0'.toNat)) 0

/-- The lexeme that a stretch of text spells in the class. -/
def read : TokenClass → List UInt8 → Except ScanFault Lexeme
  | number, text =>
    if decimalValue text < 1 <<< 63 then .ok (.number (Int64.ofNat (decimalValue text)))
    else .error (.tooLarge (textOfBytes text))
  | word, text => .ok (.ofWord (textOfBytes text))
  | operator, text =>
    match operatorAt? text with
    | some (_, symbol) => .ok (.op symbol)
    | none => .error (.unexpected (Text.firstCharacter text))
  | punctuation, text =>
    match text.head?.bind punctuation? with
    | some lexeme => .ok lexeme
    | none => .error (.unexpected (Text.firstCharacter text))

end TokenClass

/-! ### One token -/

/-- Whether the byte begins an operator, the one spelt with two equality signs aside.  Of the bytes
beyond ASCII some do, which the class then decides. -/
def opensOperator (b : UInt8) : Bool :=
  b == '+'.toUInt8 || b == '-'.toUInt8 || b == '*'.toUInt8 || b == '/'.toUInt8 || b == '<'.toUInt8
    || b == '>'.toUInt8 || 0x80 ≤ b

/-- The class that may have a token at the front of a text, by its first byte, and the slice of the
text to look at. -/
def candidate? : List UInt8 → Option (TokenClass × List UInt8)
  | [] => none
  | b :: rest =>
    if isDigitByte b then some (.number, (b :: rest).takeWhile isWordByte)
    else if isLetterByte b then some (.word, (b :: rest).takeWhile isWordByte)
    else if b == '='.toUInt8 && rest.head? == some '='.toUInt8 then
      some (.operator, (b :: rest).take 2)
    else if (punctuation? b).isSome then some (.punctuation, [b])
    else if opensOperator b then some (.operator, (b :: rest).take 3)
    else none

/-- The token at the front of a text: its class and the bytes that spell it. -/
def spelt? (text : List UInt8) : Option (TokenClass × List UInt8) :=
  match candidate? text with
  | some (cls, slice) =>
    if (cls.spelling slice).isEmpty then none else some (cls, cls.spelling slice)
  | none => none

/-- A place where no token could be read, and why. -/
structure ScanError where
  /-- Where the offending character or number begins. -/
  position : Position
  /-- What is wrong with it. -/
  fault : ScanFault
deriving DecidableEq, Repr, Inhabited

namespace ScanError

/-- The wording of what is wrong. -/
def detail (e : ScanError) : String :=
  match e.fault with
  | .unexpected character => "unexpected character " ++ Text.quoteChar character
  | .tooLarge digits => "number " ++ digits ++ " out of range"

/-- The full diagnostic, position first. -/
def message (e : ScanError) : String :=
  e.position.text ++ ": " ++ e.detail

end ScanError

/-- A place in a source text: the bytes still to be read and the position of the first of them. -/
structure Scanner where
  /-- Where the remaining bytes begin. -/
  position : Position
  /-- The bytes still to be read. -/
  rest : List UInt8
deriving DecidableEq, Repr, Inhabited

namespace Scanner

/-- The scanner at the start of a text. -/
def ofSource (source : List UInt8) : Scanner where
  position := .start
  rest := source

/-- Skips blanks and comments.  A comment runs from two slashes up to the end of its line; the
newline itself is a blank.  `inComment` says whether the first byte belongs to a comment. -/
def skipFrom (inComment : Bool) (position : Position) : List UInt8 → Scanner
  | [] => ⟨position, []⟩
  | b :: rest =>
    if inComment && b != '\n'.toUInt8 then skipFrom true (position.step b) rest
    else if isBlankByte b then skipFrom false (position.step b) rest
    else if b == '/'.toUInt8 && rest.head? == some '/'.toUInt8 then
      skipFrom true (position.step b) rest
    else ⟨position, b :: rest⟩

/-- The scanner behind the blanks and comments at its front. -/
def skip (s : Scanner) : Scanner :=
  skipFrom false s.position s.rest

/-- The scanner behind the next bytes, as many as are given. -/
def drop (s : Scanner) (bytes : List UInt8) : Scanner where
  position := s.position.advance bytes
  rest := s.rest.drop bytes.length

/-- Reads the token that the remaining bytes begin with, blanks and comments being skipped already.
At the end of the text that is the end marker, with an empty span. -/
def readToken (s : Scanner) : Except ScanError Token × Scanner :=
  if s.rest.isEmpty then (.ok ⟨.eof, ⟨s.position, s.position⟩⟩, s)
  else match spelt? s.rest with
    | none => (.error ⟨s.position, .unexpected (Text.firstCharacter s.rest)⟩, s)
    | some (cls, bytes) =>
      match cls.read bytes with
      | .ok lexeme => (.ok ⟨lexeme, ⟨s.position, (s.drop bytes).position⟩⟩, s.drop bytes)
      | .error fault => (.error ⟨s.position, fault⟩, s.drop bytes)

/-- Reads the next token.  At the end of the text every call gives the end marker. -/
def next (s : Scanner) : Except ScanError Token × Scanner :=
  s.skip.readToken

/-! ### Progress -/

theorem length_rest_skipFrom_le (inComment : Bool) (position : Position) (text : List UInt8) :
    (skipFrom inComment position text).rest.length ≤ text.length := by
  induction text generalizing inComment position with
  | nil => simp [skipFrom]
  | cons b rest ih =>
    unfold skipFrom
    split
    · exact Nat.le_succ_of_le (ih _ _)
    · split
      · exact Nat.le_succ_of_le (ih _ _)
      · split
        · exact Nat.le_succ_of_le (ih _ _)
        · exact Nat.le_refl _

theorem spelt?_ne_nil {text bytes : List UInt8} {cls : TokenClass}
    (h : spelt? text = some (cls, bytes)) : bytes ≠ [] := by
  unfold spelt? at h
  split at h
  · split at h
    · cases h
    · rename_i hne
      simp only [Option.some.injEq, Prod.mk.injEq] at h
      obtain ⟨rfl, rfl⟩ := h
      simpa using hne
  · cases h

/-- **A token that is not the end marker takes at least one byte.** -/
theorem length_rest_next_lt {s s' : Scanner} {t : Token} (h : s.next = (.ok t, s'))
    (ht : t.lexeme ≠ .eof) : s'.rest.length < s.rest.length := by
  have hskip : s.skip.rest.length ≤ s.rest.length := length_rest_skipFrom_le _ _ _
  unfold next readToken at h
  split at h
  · -- At the end only the end marker is read.
    cases h
    exact absurd rfl ht
  · rename_i hne
    have hpos : 0 < s.skip.rest.length := by
      cases hr : s.skip.rest with
      | nil => simp [hr] at hne
      | cons b rest => simp
    split at h
    · cases h
    · rename_i cls bytes hsp
      have hb : 0 < bytes.length := List.length_pos_iff.2 (spelt?_ne_nil hsp)
      split at h
      · cases h
        simp only [drop, List.length_drop]
        omega
      · cases h

/-! ### All tokens -/

/-- Reads tokens up to and including the end marker, or up to the first failure. -/
def scan (s : Scanner) : Except ScanError (List Token) :=
  match _h : s.next with
  | (.error e, _) => .error e
  | (.ok t, s') =>
    if _ht : t.lexeme = .eof then .ok [t]
    else s'.scan.map (t :: ·)
termination_by s.rest.length
decreasing_by exact length_rest_next_lt _h _ht

end Scanner

/-- The tokens of a source text, the end marker last. -/
def scan (source : List UInt8) : Except ScanError (List Token) :=
  (Scanner.ofSource source).scan

end BlockFlow
