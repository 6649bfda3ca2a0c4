/-!
# Positions and spans

A position is a place in a source text, by line, column and byte offset.  Lines and columns count
from one, offsets from zero.  Columns count characters: a byte that continues a character does not
move the column.

A span is a stretch of source text, from a first position to the position just behind it.  Spans
come with tokens, and tokens may also be made by hand, so neither type promises that its numbers
belong to any text.
-/

namespace BlockFlow

/-- A place in a source text. -/
structure Position where
  /-- Line, counted from one. -/
  line : Int := 0
  /-- Column on the line in characters, counted from one. -/
  column : Int := 0
  /-- Distance from the start of the text in bytes. -/
  offset : Int := 0
deriving DecidableEq, Repr, Inhabited

namespace Position

/-- The position of the first byte of a text. -/
def start : Position where
  line := 1
  column := 1
  offset := 0

/-- Line and column, as diagnostics write them. -/
def text (p : Position) : String :=
  toString p.line ++ ":" ++ toString p.column

/-- Whether the position can belong to a text at all: lines count from one. -/
def isValid (p : Position) : Bool :=
  p.line > 0

/-- Whether `p` lies before `q` in the text. -/
def isBefore (p q : Position) : Bool :=
  p.offset < q.offset

/-- Whether the byte continues a character whose encoding began earlier. -/
def isContinuation (b : UInt8) : Bool :=
  b &&& 0xc0 == 0x80

/-- The position behind one more byte. -/
def step (p : Position) (b : UInt8) : Position :=
  if b == '\n'.toUInt8 then ⟨p.line + 1, 1, p.offset + 1⟩
  else if isContinuation b then ⟨p.line, p.column, p.offset + 1⟩
  else ⟨p.line, p.column + 1, p.offset + 1⟩

/-- The position behind a stretch of bytes. -/
def advance (p : Position) (bytes : List UInt8) : Position :=
  bytes.foldl step p

end Position

/-- A stretch of source text: `start` is its first position, `stop` the position just behind it. -/
structure Span where
  /-- The first position of the stretch. -/
  start : Position := {}
  /-- The position just behind the stretch. -/
  stop : Position := {}
deriving DecidableEq, Repr, Inhabited

namespace Span

/-- The span as diagnostics write it: the line of the end is left out when it is the line of the
start. -/
def text (s : Span) : String :=
  if s.start.line = s.stop.line then s.start.text ++ "-" ++ toString s.stop.column
  else s.start.text ++ "-" ++ s.stop.text

/-- The length in bytes, as a signed 64-bit word. -/
def length (s : Span) : Int :=
  (Int64.ofInt (s.stop.offset - s.start.offset)).toInt

end Span

end BlockFlow
