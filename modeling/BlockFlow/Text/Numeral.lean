/-!
# Signed numerals

Numbers on the command line, in batch files and in level texts are decimal numerals of a signed
64-bit word: an optional sign followed by at least one digit.

A numeral is read from left to right and refused at the first thing that is wrong with it, so a
numeral that has already outgrown 64 bits is out of range whatever follows, and one that meets a
foreign character first is malformed.
-/

namespace BlockFlow.Text

/-- Why a text is not the numeral of a signed 64-bit word. -/
inductive NumeralError where
  /-- There is no digit, or something that is not a digit. -/
  | malformed
  /-- The number does not fit. -/
  | outOfRange
deriving DecidableEq, Repr, Inhabited

namespace NumeralError

/-- The wording of the reason. -/
def message : NumeralError → String
  | malformed => "invalid syntax"
  | outOfRange => "value out of range"

end NumeralError

/-- The value of decimal digits read after `n`, as long as it fits in an unsigned word. -/
def magnitudeFrom (n : Nat) : List Char → Except NumeralError Nat
  | [] => .ok n
  | c :: cs =>
    if c.isDigit then
      let next := 10 * n + (c.toNat - '0'.toNat)
      if next < 1 <<< 64 then magnitudeFrom next cs else .error .outOfRange
    else .error .malformed

/-- The value of a numeral without sign, which needs at least one digit. -/
def magnitude : List Char → Except NumeralError Nat
  | [] => .error .malformed
  | cs => magnitudeFrom 0 cs

/-- Reads a signed decimal numeral. -/
def readInt64 (cs : List Char) : Except NumeralError Int64 := do
  match cs with
  | '-' :: digits =>
    let n ← magnitude digits
    if n ≤ 1 <<< 63 then .ok (Int64.ofInt (-n)) else .error .outOfRange
  | '+' :: digits =>
    let n ← magnitude digits
    if n < 1 <<< 63 then .ok (Int64.ofNat n) else .error .outOfRange
  | digits =>
    let n ← magnitude digits
    if n < 1 <<< 63 then .ok (Int64.ofNat n) else .error .outOfRange

end BlockFlow.Text
