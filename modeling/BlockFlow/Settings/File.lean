import BlockFlow.Settings.Basic
import BlockFlow.Settings.DocumentReader

/-!
# Settings files

A settings file is a document whose labels are the names of settings.  Every setting is optional,
no other label is allowed, and every value has to be one that the setting can have.
-/

namespace BlockFlow

namespace Settings

/-- The names of levels in a settings file. -/
def levelNames : List String :=
  ["debug", "info", "warn", "error"]

/-- Whether a number fits in a word, sign and all. -/
def fits (n : Int) : Bool :=
  n.natAbs < 1 <<< 63

/-- The settings with what one entry says. -/
def withEntry? (s : Settings) : Entry → Option Settings
  | ⟨[], .record⟩ => some s
  | ⟨[.field "maxSteps"], .number n⟩ =>
    if -1 ≤ n ∧ fits n then some { s with maxSteps := n } else none
  | ⟨[.field "mode"], .text name⟩ =>
    if (Stage.ofName? name).isSome then some { s with mode := name } else none
  | ⟨[.field "logLevel"], .text name⟩ =>
    if name ∈ levelNames then some { s with logLevel := name } else none
  | ⟨[.field "journal"], .flag value⟩ => some { s with journal := value }
  | ⟨[.field "optimize"], .flag value⟩ => some { s with optimize := value }
  | ⟨[.field "workers"], .number n⟩ =>
    if 0 ≤ n ∧ fits n then some { s with workers := n } else none
  | ⟨[.field "inputs"], .record⟩ => some s
  | ⟨[.field "inputs", .field name], .number n⟩ =>
    if fits n then some { s with inputs := s.inputs.insert name (Int64.ofInt n) } else none
  | _ => none

/-- What every settings file says: that it is a record, and that its inputs are one. -/
def frame : List Entry :=
  [⟨[], .record⟩, ⟨[.field "inputs"], .record⟩]

/-- The settings of a document.  All that is written in it has to agree, and its data has to have
values. -/
def ofDocument? (d : Document) : Option Settings :=
  let d := d.withEntries frame
  if d.isConsistent && d.isConcrete then d.values.foldlM withEntry? {} else none

/-- The settings of a file, the unset ones filled in. -/
def ofText? (text : List Char) : Option Settings := do
  let s ← ofDocument? (← Document.parse? text)
  some s.withDefaults

end Settings

end BlockFlow
