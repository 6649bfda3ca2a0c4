import BlockFlow.Log.Level

/-!
# Log records

A record is a message at a level with attributes: keys and values in a fixed order.  A record does
not say when it was made or how long something took; that is known only to whoever writes it down,
and `Stamps` gives it to them.
-/

namespace BlockFlow

/-- The value of an attribute. -/
inductive LogValue where
  | text (value : String)
  | number (value : Int)
  | flag (value : Bool)
  /-- There is no value. -/
  | missing
  /-- How long the work took that the record is about. -/
  | elapsed
deriving DecidableEq, Repr, Inhabited

/-- A key and a value. -/
structure Attribute where
  /-- The key. -/
  key : String
  /-- The value. -/
  value : LogValue
deriving DecidableEq, Repr, Inhabited

/-- A message with attributes. -/
structure LogRecord where
  /-- How important the record is. -/
  level : Level
  /-- What it says. -/
  message : String
  /-- The attributes, in order. -/
  attributes : List Attribute
deriving DecidableEq, Repr, Inhabited

/-- The texts for what a record does not know itself. -/
structure Stamps where
  /-- When the record is written. -/
  time : String
  /-- How long the work took. -/
  elapsed : String
deriving DecidableEq, Repr, Inhabited

namespace LogValue

/-- The text of a value. -/
def render (stamps : Stamps) : LogValue → String
  | text value => value
  | number value => toString value
  | flag value => if value then "true" else "false"
  | missing => "<nil>"
  | elapsed => stamps.elapsed

end LogValue

namespace Attribute

/-- Whether the attribute has neither key nor value; such a one is not written. -/
def isVoid (a : Attribute) : Bool :=
  a.key == "" && a.value == .missing

end Attribute

namespace LogRecord

/-- A record that follows the work of the program. -/
def debug (message : String) (attributes : List Attribute) : LogRecord :=
  ⟨.debug, message, attributes⟩

/-- The record in short, with its attributes but without those that need stamps. -/
def summary (r : LogRecord) : String :=
  let shown := r.attributes.filter fun a => a.value != .elapsed
  r.level.text ++ " " ++ r.message
    ++ String.join (shown.map fun a => " " ++ a.key ++ "=" ++ a.value.render ⟨"", ""⟩)

end LogRecord

end BlockFlow
