import BlockFlow.Machine.Inputs
import BlockFlow.Text.Blank
import BlockFlow.Text.Numeral

/-!
# Assignments

Inputs are given as assignments `name=value`: on the command line one by one, in a batch file as the
fields of a line, one line per job.  Lines that are blank or begin with a number sign are skipped.
-/

namespace BlockFlow

/-- Why a text is not an assignment. -/
inductive AssignmentError where
  /-- There is no name or no equality sign. -/
  | malformed (text : String)
  /-- The value is no number. -/
  | badValue (name value : String)
deriving DecidableEq, Repr, Inhabited

namespace AssignmentError

/-- The wording of an error. -/
def message : AssignmentError → String
  | malformed text => "invalid variable assignment: " ++ text ++ " (expected var=value)"
  | badValue name value => "invalid value for " ++ name ++ ": " ++ value

end AssignmentError

namespace Inputs

/-- The inputs with one assignment, which replaces an earlier one to the same name. -/
def assign (inputs : Inputs) (text : List Char) : Except AssignmentError Inputs :=
  match Text.cut '=' text with
  | none => .error (.malformed (String.ofList text))
  | some ([], _) => .error (.malformed (String.ofList text))
  | some (name, value) =>
    match Text.readInt64 value with
    | .ok n => .ok (inputs.insert (String.ofList name) n)
    | .error _ => .error (.badValue (String.ofList name) (String.ofList value))

/-- The inputs that assignments give. -/
def ofAssignments (texts : List (List Char)) : Except AssignmentError Inputs :=
  texts.foldlM assign empty

/-- The inputs of the jobs in numbered lines, or the number of the first line that is wrong. -/
def ofLines : List (List Char × Nat) → Except (Nat × AssignmentError) (List Inputs)
  | [] => .ok []
  | (line, number) :: rest =>
    let line := Text.trimBlanks line
    if line.isEmpty || line.head? == some '#' then ofLines rest
    else do
      let inputs ← (ofAssignments (Text.fields line)).mapError fun e => (number, e)
      let others ← ofLines rest
      .ok (inputs :: others)

/-- The inputs of the jobs in a batch file, whose lines are numbered from one. -/
def ofBatchFile (text : List Char) : Except (Nat × AssignmentError) (List Inputs) :=
  ofLines ((Text.pieces '\n' text).zipIdx 1)

end Inputs

end BlockFlow
