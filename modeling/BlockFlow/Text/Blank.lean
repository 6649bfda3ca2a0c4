/-!
# Blank characters

The white space of Unicode, by which a line is trimmed and cut into fields.
-/

namespace BlockFlow.Text

/-- Whether the character is white space: the plain space, the controls from tab to carriage
return, the next-line control and the spaces and separators beyond ASCII. -/
def isBlank (c : Char) : Bool :=
  let n := c.toNat
  n == 0x20 || (0x09 ≤ n && n ≤ 0x0d) || n == 0x85 || n == 0xa0 || n == 0x1680
    || (0x2000 ≤ n && n ≤ 0x200a) || n == 0x2028 || n == 0x2029 || n == 0x202f || n == 0x205f
    || n == 0x3000

/-- The characters left after blanks are taken off both ends. -/
def trimBlanks (cs : List Char) : List Char :=
  ((cs.dropWhile isBlank).reverse.dropWhile isBlank).reverse

/-- The maximal runs of characters that satisfy no separator test, empty runs left out.  `word`
holds the characters of the run being read, last character first. -/
def wordsFrom (isSeparator : Char → Bool) (word : List Char) : List Char → List (List Char)
  | [] => if word.isEmpty then [] else [word.reverse]
  | c :: cs =>
    if isSeparator c then
      if word.isEmpty then wordsFrom isSeparator [] cs
      else word.reverse :: wordsFrom isSeparator [] cs
    else wordsFrom isSeparator (c :: word) cs

/-- The fields of a text: its maximal runs of characters that are not blank. -/
def fields (cs : List Char) : List (List Char) :=
  wordsFrom isBlank [] cs

/-- The pieces of a text between occurrences of a character; a text without any is one piece. -/
def pieces (separator : Char) : List Char → List (List Char)
  | [] => [[]]
  | c :: cs =>
    if c == separator then [] :: pieces separator cs
    else match pieces separator cs with
      | [] => [[c]]
      | piece :: rest => (c :: piece) :: rest

/-- Cuts a text at the first occurrence of a character: what stands before it and what stands
after it, or nothing when the character does not occur. -/
def cut (separator : Char) : List Char → Option (List Char × List Char)
  | [] => none
  | c :: cs =>
    if c == separator then some ([], cs)
    else (cut separator cs).map fun (before, after) => (c :: before, after)

end BlockFlow.Text
