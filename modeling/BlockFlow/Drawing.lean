/-!
# Drawings

Trees and graphs are drawn as digraphs in the language of a graph layout tool.  A drawing is the
list of its writes, in order: the header, the nodes, the edges, the closing brace.  A `Writer` takes
the writes one after the other and may fail at any of them; once it has failed nothing more is
offered to it.

The label of a block joins lines of text.  Each line is followed by the two characters that break a
line in a label, and backslashes and quotation marks within it are escaped.
-/

namespace BlockFlow

/-- A drawing, as the list of its writes. -/
abbrev Drawing := List String

/-- A place to write to that accepts a number of writes and then fails. -/
structure Writer where
  /-- How many more writes are accepted. -/
  capacity : Nat
  /-- The text accepted so far. -/
  accepted : String := ""
  /-- How many writes were attempted. -/
  attempts : Nat := 0
  /-- Whether a write has failed. -/
  hasFailed : Bool := false
deriving DecidableEq, Repr, Inhabited

namespace Writer

/-- Offers one write, unless an earlier one has failed. -/
def write (w : Writer) (s : String) : Writer :=
  if w.hasFailed then w
  else match w.capacity with
    | 0 => ⟨0, w.accepted, w.attempts + 1, true⟩
    | n + 1 => ⟨n, w.accepted ++ s, w.attempts + 1, false⟩

end Writer

namespace Drawing

/-- The whole text of a drawing. -/
def text (d : Drawing) : String :=
  String.join d

/-- Offers the writes of a drawing to a writer, in order. -/
def writeTo (w : Writer) (d : Drawing) : Writer :=
  d.foldl Writer.write w

/-- The first write of a graph of rectangles. -/
def rectangleHeader : String :=
  "digraph G \x7b\nnode[shape=rectangle]\n"

/-- The last write of every drawing. -/
def footer : String :=
  "\x7d\n"

/-- The write of an edge between two numbered nodes. -/
def edge (source target : Nat) : String :=
  toString source ++ " -> " ++ toString target ++ "\n"

/-- A character as it stands in a label. -/
def labelChar (c : Char) : List Char :=
  if c = '\\' then ['\\', '\\']
  else if c = '"' then ['\\', '"']
  else [c]

/-- The characters of a label that shows the lines one below the other. -/
def labelChars (lines : List String) : List Char :=
  lines.flatMap fun line => line.toList.flatMap labelChar ++ ['\\', 'n']

/-- The label that shows the lines one below the other. -/
def label (lines : List String) : String :=
  String.ofList (labelChars lines)

/-- The write of a numbered rectangle with lines of text in it. -/
def rectangle (id : Nat) (lines : List String) : String :=
  toString id ++ " [label=\"" ++ label lines ++ "\"]\n"

end Drawing

end BlockFlow
