import BlockFlow.Log.Record
import BlockFlow.Text.Blank

/-!
# Log lines

A logger writes each record as one line of keys and values: the time, the level, the message, the
attributes fixed beforehand, the attributes of the record, and last the run that the record belongs
to, if it belongs to one.

A key, message or value stands in the line as it is unless that would be unclear: then it is quoted.

A logger may have opened groups.  The names of the groups, each followed by a point, stand before
every key that comes after them, and key and groups are quoted together.
-/

namespace BlockFlow

namespace Text

/-- Whether the character would make the extent of an item in a line unclear. -/
def isUnclear (c : Char) : Bool :=
  if c.toNat < 0x80 then c.toNat ≤ 0x20 || c == '=' || c == '"'
  else c == '\uFFFD' || isBlank c || !isGraphic c

/-- Whether an item has to be quoted in a line. -/
def needsQuotes (s : String) : Bool :=
  s == "" || s.toList.any isUnclear

/-- An item as it stands in a line. -/
def lineItem (s : String) : String :=
  if needsQuotes s then quote s else s

end Text

namespace Attribute

/-- A key behind the names of its groups, as it stands in a line.  Without groups that is the key;
otherwise one part that has to be quoted makes the whole quoted. -/
def lineKey (groups key : String) : String :=
  if groups == "" then Text.lineItem key
  else if Text.needsQuotes groups || Text.needsQuotes key then Text.quote (groups ++ key)
  else groups ++ key

/-- An attribute behind the names of its groups, as it stands in a line, with a space before it. -/
def lineText (stamps : Stamps) (groups : String) (a : Attribute) : String :=
  if a.isVoid then ""
  else " " ++ lineKey groups a.key ++ "=" ++ Text.lineItem (a.value.render stamps)

end Attribute

/-- Writes records as lines. -/
structure Logger where
  /-- The least level that is written. -/
  threshold : Level := .info
  /-- Whether there is a place to write to. -/
  hasSink : Bool := true
  /-- The names of the open groups, each followed by a point. -/
  groups : String := ""
  /-- The attributes of every line, each with the groups that were open when it was fixed. -/
  fixed : List (String × Attribute) := []
deriving DecidableEq, Repr, Inhabited

namespace Logger

/-- Fixes attributes for every further line. -/
def withAttributes (logger : Logger) (attributes : List Attribute) : Logger :=
  { logger with fixed := logger.fixed ++ attributes.map fun a => (logger.groups, a) }

/-- Opens a group.  A group without a name changes nothing. -/
def withGroup (logger : Logger) (name : String) : Logger :=
  if name == "" then logger else { logger with groups := logger.groups ++ name ++ "." }

/-- The line of a record, which belongs to a run if one is given; empty when the record is not
written. -/
def line (logger : Logger) (stamps : Stamps) (run : Option String) (r : LogRecord) : String :=
  if logger.hasSink && r.level.reaches logger.threshold then
    let ofRun := (run.map fun run => Attribute.mk "logs.run" (.text run)).toList
    "time=" ++ stamps.time ++ " level=" ++ r.level.text ++ " msg=" ++ Text.lineItem r.message
      ++ String.join (logger.fixed.map fun (groups, a) => a.lineText stamps groups)
      ++ String.join ((r.attributes ++ ofRun).map (Attribute.lineText stamps logger.groups))
      ++ "\n"
  else ""

end Logger

end BlockFlow
