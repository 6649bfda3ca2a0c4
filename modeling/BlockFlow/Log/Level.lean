import BlockFlow.Text.Capital
import BlockFlow.Text.Numeral
import BlockFlow.Text.Quoted

/-!
# Log levels

The level of a record is a word: the greater, the more important the record.  Four levels have a
name, every fourth word from debug on, and any other is written as the next name below it with the
distance to it (`INFO+2`).  Below debug the distance is negative.

A level is read from the same form.  The case of the name does not matter, and the distance may be
any number, also one that leads past another name.
-/

namespace BlockFlow

/-- How important a record is. -/
structure Level where
  /-- The greater, the more important. -/
  rank : Int64
deriving DecidableEq, Repr, Inhabited

/-- Why a text is not a level. -/
inductive LevelError where
  /-- The text has a name that is no level's. -/
  | unknownName (text : String)
  /-- The distance behind the name is no number. -/
  | badDistance (text distance : String) (reason : Text.NumeralError)
deriving DecidableEq, Repr, Inhabited

namespace LevelError

/-- The wording of an error. -/
def message : LevelError → String
  | unknownName text => "slog: level string " ++ Text.quote text ++ ": unknown name"
  | badDistance text distance reason =>
    "slog: level string " ++ Text.quote text ++ ": strconv.Atoi: parsing " ++ Text.quote distance
      ++ ": " ++ reason.message

end LevelError

namespace Level

/-- What helps to follow the work of the program. -/
def debug : Level := ⟨-4⟩

/-- What the program reports in passing. -/
def info : Level := ⟨0⟩

/-- What is worth a look. -/
def warn : Level := ⟨4⟩

/-- What went wrong. -/
def error : Level := ⟨8⟩

/-- Whether a record of the level is written under a threshold. -/
def reaches (level threshold : Level) : Bool :=
  threshold.rank ≤ level.rank

/-! ### Names -/

/-- A level as a name and the distance to it, which is left out when there is none. -/
def relativeTo (level base : Level) (name : String) : String :=
  let distance := level.rank - base.rank
  if distance = 0 then name
  else if 0 < distance then name ++ "+" ++ toString distance.toInt
  else name ++ toString distance.toInt

/-- The text of a level. -/
def text (level : Level) : String :=
  if level.rank < info.rank then level.relativeTo debug "DEBUG"
  else if level.rank < warn.rank then level.relativeTo info "INFO"
  else if level.rank < error.rank then level.relativeTo warn "WARN"
  else level.relativeTo error "ERROR"

/-- The level of a name in capitals. -/
def ofName? : String → Option Level
  | "DEBUG" => some debug
  | "INFO" => some info
  | "WARN" => some warn
  | "ERROR" => some error
  | _ => none

/-- Whether the character begins a distance. -/
def isSign (c : Char) : Bool :=
  c == '+' || c == '-'

/-- Reads a level.  The distance is read before the name is looked at. -/
def parse (text : String) : Except LevelError Level := do
  let name := text.toList.takeWhile (fun c => !isSign c)
  let distance := text.toList.dropWhile (fun c => !isSign c)
  let offset ←
    if distance.isEmpty then .ok 0
    else (Text.readInt64 distance).mapError (.badDistance text (String.ofList distance))
  match ofName? (String.ofList (name.map Text.basicCapital)) with
  | some level => .ok ⟨level.rank + offset⟩
  | none => .error (.unknownName text)

end Level

end BlockFlow
