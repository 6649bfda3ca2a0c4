/-!
# Characters of bytes

Texts come as bytes, in which a character takes one to four.  Bytes that encode no character read as
the replacement character, one for each such byte.
-/

namespace BlockFlow.Text

/-- The character at the front of a text, if the first bytes encode one. -/
def leading? (bytes : List UInt8) : Option Char :=
  (bytes.take 4).toByteArray.utf8DecodeChar? 0

/-- The first character of a text. -/
def firstCharacter (bytes : List UInt8) : Char :=
  (leading? bytes).getD '\uFFFD'

/-- The characters of a text. -/
def decode (bytes : List UInt8) : List Char :=
  match bytes with
  | [] => []
  | b :: rest =>
    match leading? (b :: rest) with
    | some c => c :: decode (rest.drop (c.utf8Size - 1))
    | none => '\uFFFD' :: decode rest
termination_by bytes.length
decreasing_by
  · simp only [List.length_drop, List.length_cons]
    omega
  · simp

end BlockFlow.Text
