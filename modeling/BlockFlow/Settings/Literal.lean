/-!
# Literals of settings documents

Numbers and quoted texts as a settings document writes them.

A whole number is written in decimal digits, or behind `0x`, `0o` or `0b` in another base; a suffix
such as `K` or `Ki` multiplies a decimal number by a power of a thousand or of 1024.  A number with
a point or an exponent is a decimal fraction, which is another kind of number even when its value is
whole.  Single underscores may separate digits everywhere.

A quoted text stands on one line between double marks.  A backslash escapes the mark, itself, the
slash, seven controls, and characters given by four or eight hexadecimal digits, of which two in a
row may give the halves of one character.
-/

namespace BlockFlow

/-! ### Numbers -/

/-- A decimal fraction: a whole number times a power of ten, with no zero at its end, so that each
value is written in one way. -/
structure Decimal where
  /-- The digits, as a whole number. -/
  mantissa : Int
  /-- The power of ten. -/
  exponent : Int
deriving DecidableEq, Repr, Inhabited

namespace Decimal

/-- Moves zeros at the end of the digits, at most `fuel` of them, to the power. -/
def strip : (fuel : Nat) → Nat → Int → Decimal
  | 0, mantissa, exponent => ⟨mantissa, exponent⟩
  | fuel + 1, mantissa, exponent =>
    if mantissa % 10 = 0 then strip fuel (mantissa / 10) (exponent + 1) else ⟨mantissa, exponent⟩

/-- The fraction with the given digits and power of ten.  A number has fewer digits than its value,
which bounds the zeros at its end. -/
def ofDigits (mantissa : Nat) (exponent : Int) : Decimal :=
  if mantissa = 0 then ⟨0, 0⟩ else strip (Nat.log2 mantissa + 1) mantissa exponent

/-- The fraction with the other sign. -/
def negate (d : Decimal) : Decimal :=
  ⟨-d.mantissa, d.exponent⟩

end Decimal

/-- The value of a digit in base sixteen or below. -/
def digitValue? (c : Char) : Option Nat :=
  if c.isDigit then some (c.toNat - '0'.toNat)
  else if 'a' ≤ c ∧ c ≤ 'f' then some (c.toNat - 'a'.toNat + 10)
  else if 'A' ≤ c ∧ c ≤ 'F' then some (c.toNat - 'A'.toNat + 10)
  else none

/-- The value of digits read after a value, all of which have to belong to the base. -/
def digitsFrom? (base value : Nat) : List Char → Option Nat
  | [] => some value
  | c :: cs =>
    match digitValue? c with
    | some digit => if digit < base then digitsFrom? base (base * value + digit) cs else none
    | none => none

/-- Whether underscores stand only between digits, one at a time. -/
def isSeparated (cs : List Char) : Bool :=
  cs.head? != some '_' && cs.getLast? != some '_' && !(cs.zip cs.tail).contains ('_', '_')

/-- The value of digits with underscores between them; there has to be a digit. -/
def digits? (base : Nat) (cs : List Char) : Option Nat :=
  if cs.isEmpty || !isSeparated cs then none else digitsFrom? base 0 (cs.filter (· != '_'))

/-- The factor that a suffix stands for. -/
def scale? : List Char → Option Nat
  | ['K'] => some 1000
  | ['M'] => some 1000000
  | ['G'] => some 1000000000
  | ['T'] => some 1000000000000
  | ['P'] => some 1000000000000000
  | ['K', 'i'] => some (1 <<< 10)
  | ['M', 'i'] => some (1 <<< 20)
  | ['G', 'i'] => some (1 <<< 30)
  | ['T', 'i'] => some (1 <<< 40)
  | ['P', 'i'] => some (1 <<< 50)
  | _ => none

/-- The value of an exponent, which may have a sign. -/
def exponent? : List Char → Option Int
  | '-' :: cs => (digits? 10 cs).map fun n => -(n : Int)
  | '+' :: cs => (digits? 10 cs).map fun n => (n : Int)
  | cs => (digits? 10 cs).map fun n => (n : Int)

/-- A number as it is written. -/
inductive NumberLiteral where
  | whole (value : Nat)
  | decimal (value : Decimal)
deriving DecidableEq, Repr, Inhabited

namespace NumberLiteral

/-- Whether the character is a decimal digit or separates digits. -/
def isDigitPart (c : Char) : Bool :=
  c.isDigit || c == '_'

/-- A whole number in decimal digits.  One of more than one digit does not begin with zero. -/
def ofDigits? (cs : List Char) : Option NumberLiteral :=
  if cs.head? == some '0' && 1 < cs.length then none else (digits? 10 cs).map whole

/-- The digits before and behind a point, as one number; one of the two parts may be empty. -/
def mantissa? (before behind : List Char) : Option Nat :=
  if before.isEmpty then digits? 10 behind
  else if behind.isEmpty then digits? 10 before
  else do
    let _ ← digits? 10 before
    let _ ← digits? 10 behind
    digitsFrom? 10 0 ((before ++ behind).filter (· != '_'))

/-- How many digits there are between underscores. -/
def digitCount (cs : List Char) : Nat :=
  cs.countP (· != '_')

/-- A number that a suffix multiplies; the product has to be whole. -/
def scaled? (before behind suffix : List Char) : Option NumberLiteral := do
  let mantissa ← mantissa? before behind
  let scale ← scale? suffix
  let places := Nat.pow 10 (digitCount behind)
  if mantissa * scale % places = 0 then some (.whole (mantissa * scale / places)) else none

/-- A decimal number, from the digits before the point, those behind it if there is a point, and
what follows them. -/
def ofParts? (before : List Char) (behind : Option (List Char)) :
    List Char → Option NumberLiteral
  | [] =>
    match behind with
    | none => ofDigits? before
    | some behind =>
      (mantissa? before behind).map fun m => .decimal (.ofDigits m (-(digitCount behind : Int)))
  | c :: rest =>
    if c == 'e' || c == 'E' then do
      let m ← mantissa? before (behind.getD [])
      let e ← exponent? rest
      some (.decimal (.ofDigits m (e - (digitCount (behind.getD []) : Int))))
    else if behind.isNone && before.head? == some '0' then none
    else scaled? before (behind.getD []) (c :: rest)

/-- Reads a number. -/
def read? (cs : List Char) : Option NumberLiteral :=
  match cs with
  | '0' :: 'x' :: rest => (digits? 16 rest).map whole
  | '0' :: 'X' :: rest => (digits? 16 rest).map whole
  | '0' :: 'o' :: rest => (digits? 8 rest).map whole
  | '0' :: 'b' :: rest => (digits? 2 rest).map whole
  | _ =>
    let before := cs.takeWhile isDigitPart
    match cs.dropWhile isDigitPart with
    | '.' :: rest =>
      ofParts? before (some (rest.takeWhile isDigitPart)) (rest.dropWhile isDigitPart)
    | rest => ofParts? before none rest

/-- Whether the character can stand in a number behind its first character.  A sign can when it
follows the mark of an exponent. -/
def continues (last c : Char) : Bool :=
  c.isAlphanum || c == '_' || c == '.' || ((last == 'e' || last == 'E') && (c == '+' || c == '-'))

/-- The characters that may belong to a number that begins with the given character, and what
follows them.  Nothing that may follow a number directly belongs to them. -/
def span (last : Char) : List Char → List Char × List Char
  | [] => ([], [])
  | c :: cs =>
    if continues last c then
      let (taken, rest) := span c cs
      (c :: taken, rest)
    else ([], c :: cs)

theorem length_span_le (last : Char) (cs : List Char) :
    (span last cs).2.length ≤ cs.length := by
  induction cs generalizing last with
  | nil => exact Nat.le_refl _
  | cons c cs ih =>
    unfold span
    split
    · exact Nat.le_succ_of_le (ih c)
    · exact Nat.le_refl _

end NumberLiteral

/-! ### Quoted texts -/

namespace QuotedLiteral

/-- The character that a letter stands for behind a backslash. -/
def escape? : Char → Option Char
  | 'a' => some '\x07'
  | 'b' => some '\x08'
  | 'f' => some '\x0c'
  | 'n' => some '\n'
  | 'r' => some '\r'
  | 't' => some '\t'
  | 'v' => some '\x0b'
  | '/' => some '/'
  | '\\' => some '\\'
  | '"' => some '"'
  | _ => none

/-- The character of a code point. -/
def character? (point : Nat) : Option Char :=
  if point.isValidChar then some (Char.ofNat point) else none

/-- Whether the number is the first half of a character given in two halves. -/
def isFirstHalf (n : Nat) : Bool :=
  0xd800 ≤ n && n < 0xdc00

/-- The character of two halves. -/
def joined? (first second : Nat) : Option Char :=
  if 0xdc00 ≤ second ∧ second < 0xe000 then
    character? (0x10000 + (first - 0xd800) * 0x400 + (second - 0xdc00))
  else none

/-- What is being read of a quoted text. -/
inductive State where
  /-- Plain characters. -/
  | plain
  /-- The backslash before the second half of a character. -/
  | half (first : Nat)
  /-- The letter behind a backslash, with the first half of a character if one was read. -/
  | escape (first : Option Nat)
  /-- Hexadecimal digits: how many are missing, and the value of those read. -/
  | code (first : Option Nat) (missing value : Nat)
deriving DecidableEq, Repr, Inhabited

/-- The number of hexadecimal digits that a letter behind a backslash asks for. -/
def codeLength? : Char → Option Nat
  | 'u' => some 4
  | 'U' => some 8
  | _ => none

/-- What the digits of a code point amount to: a character, or the first half of one. -/
def coded? (first : Option Nat) (point : Nat) : Option (Char ⊕ Nat) :=
  match first with
  | some first => (joined? first point).map .inl
  | none => if isFirstHalf point then some (.inr point) else (character? point).map .inl

/-- Puts a character before the characters read behind it. -/
def prepend (c : Char) (read : Option (List Char × List Char)) :
    Option (List Char × List Char) :=
  read.map fun (text, rest) => (c :: text, rest)

/-- The characters of a quoted text up to its closing mark, and what follows the mark. -/
def read? (state : State) : List Char → Option (List Char × List Char)
  | [] => none
  | c :: cs =>
    match state with
    | .plain =>
      if c == '"' then some ([], cs)
      else if c == '\\' then read? (.escape none) cs
      else if c == '\n' then none
      else prepend c (read? .plain cs)
    | .half first => if c == '\\' then read? (.escape (some first)) cs else none
    | .escape first =>
      match codeLength? c, first, escape? c with
      | some length, _, _ => read? (.code first length 0) cs
      | none, none, some character => prepend character (read? .plain cs)
      | _, _, _ => none
    | .code first missing value =>
      match digitValue? c with
      | none => none
      | some digit =>
        if 1 < missing then read? (.code first (missing - 1) (16 * value + digit)) cs
        else match coded? first (16 * value + digit) with
          | some (.inl character) => prepend character (read? .plain cs)
          | some (.inr half) => read? (.half half) cs
          | none => none

theorem length_read?_lt {state : State} {cs text rest : List Char}
    (h : read? state cs = some (text, rest)) : rest.length < cs.length := by
  induction cs generalizing state text with
  | nil => simp [read?] at h
  | cons c cs ih =>
    have hprepend : ∀ {st : State} {d : Char}, prepend d (read? st cs) = some (text, rest) →
        rest.length < (c :: cs).length := by
      intro st d h
      obtain ⟨⟨t, r⟩, hq, heq⟩ := Option.map_eq_some_iff.1 h
      cases heq
      exact Nat.lt_succ_of_lt (ih hq)
    have hread : ∀ {st : State}, read? st cs = some (text, rest) →
        rest.length < (c :: cs).length := fun h => Nat.lt_succ_of_lt (ih h)
    unfold read? at h
    repeat' split at h
    all_goals first
      | exact hprepend h
      | exact hread h
      | cases h
    exact Nat.lt_succ_self _

end QuotedLiteral

end BlockFlow
