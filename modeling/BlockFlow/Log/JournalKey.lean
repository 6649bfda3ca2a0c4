import BlockFlow.Text.Capital

/-!
# Journal keys

The fields of the system journal are named by capitals, digits and underscores.  Any key is turned
into such a name character by character: letters by their capitals, and what is neither a capital
nor a digit then by an underscore.
-/

namespace BlockFlow

/-- The character of a journal key that stands for a character. -/
def journalChar (c : Char) : Char :=
  let capital := Text.basicCapital c
  if Text.isBasicCapital capital || capital.isDigit then capital else '_'

/-- The journal key that stands for a key. -/
def journalKey (key : String) : String :=
  String.ofList (key.toList.map journalChar)

end BlockFlow
