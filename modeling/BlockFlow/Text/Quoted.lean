import BlockFlow.Text.Graphic

/-!
# Quoted text

Diagnostics, drawings and log lines show a text between quotation marks whenever its extent would
otherwise be unclear.  Between the marks a graphic character stands for itself, the mark and the
backslash are preceded by a backslash, seven controls have a letter of their own, and every other
character is written by its code point: two hexadecimal digits below 128, four below 65536, eight
above.

The same rule serves a text in double marks (`quote`) and one character in single marks
(`quoteChar`); only the mark that has to be escaped differs.
-/

namespace BlockFlow.Text

/-- The number in lower-case hexadecimal digits, filled up with zeros on the left to the width. -/
def hexadecimal (width n : Nat) : String :=
  let digits := Nat.toDigits 16 n
  String.ofList (List.replicate (width - digits.length) '0' ++ digits)

/-- The letter that names a control character after a backslash, for the seven controls that have
one. -/
def controlLetter? : Char → Option Char
  | '\x07' => some 'a'
  | '\x08' => some 'b'
  | '\x0c' => some 'f'
  | '\n' => some 'n'
  | '\r' => some 'r'
  | '\t' => some 't'
  | '\x0b' => some 'v'
  | _ => none

/-- A character as it stands between two marks. -/
def escaped (mark c : Char) : String :=
  if c == mark || c == '\\' then String.ofList ['\\', c]
  else if isGraphic c then c.toString
  else match controlLetter? c with
    | some letter => String.ofList ['\\', letter]
    | none =>
      if c.toNat < 0x80 then "\\x" ++ hexadecimal 2 c.toNat
      else if c.toNat < 0x10000 then "\\u" ++ hexadecimal 4 c.toNat
      else "\\U" ++ hexadecimal 8 c.toNat

/-- A text between double marks. -/
def quote (s : String) : String :=
  "\"" ++ String.join (s.toList.map (escaped '"')) ++ "\""

/-- A character between single marks. -/
def quoteChar (c : Char) : String :=
  "'" ++ escaped '\'' c ++ "'"

end BlockFlow.Text
