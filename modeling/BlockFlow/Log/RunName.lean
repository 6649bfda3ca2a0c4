import BlockFlow.Text.Quoted

/-!
# Names of runs

Every run of the command has a name of its own, which its records carry: a random identifier of
sixteen bytes in hexadecimal digits, in groups of four, two, two, two and six bytes.
-/

namespace BlockFlow

/-- A byte with its upper four bits replaced by those that mark a random identifier. -/
def markVersion (b : Nat) : Nat :=
  0x40 + b % 16

/-- A byte with its upper two bits replaced by those that mark the layout. -/
def markLayout (b : Nat) : Nat :=
  0x80 + b % 64

/-- The name that sixteen random bytes make. -/
def runName (bytes : List Nat) : String :=
  let marked := (bytes.modify 6 markVersion).modify 8 markLayout
  let group (start length : Nat) : String :=
    String.join (((marked.drop start).take length).map (Text.hexadecimal 2))
  "-".intercalate [group 0 4, group 4 2, group 6 2, group 8 2, group 10 6]

end BlockFlow
