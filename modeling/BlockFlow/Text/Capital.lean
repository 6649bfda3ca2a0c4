/-!
# Basic capitals

Level names and journal keys are compared and written in the capitals `A` to `Z`.  Under the simple
case mapping of Unicode exactly the letters `a` to `z`, the dotless i and the long s have a capital
among these, so no table is needed.
-/

namespace BlockFlow.Text

/-- The basic capital a character maps to, or the character itself when its capital lies outside
`A` to `Z`. -/
def basicCapital (c : Char) : Char :=
  if c == 'ı' then 'I'
  else if c == 'ſ' then 'S'
  else c.toUpper

/-- Whether the character is one of the basic capitals. -/
def isBasicCapital (c : Char) : Bool :=
  'A' ≤ c && c ≤ 'Z'

end BlockFlow.Text
