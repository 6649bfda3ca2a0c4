import BlockFlow.Text.Blank
import BlockFlow.Text.Numeral

/-!
# Flags

The arguments of the command are flags followed by files.  A flag with a value has it behind an
equality sign or in the next argument; the two spellings mean the same.  Flags end at the first
argument that does not begin with a dash, at a dash alone, which stands for the standard input, or
behind two dashes.

Arguments are read from left to right, and the first that asks for help or the version, or that is
wrong, ends the reading.
-/

namespace BlockFlow

/-- What the flags say. -/
structure Flags where
  /-- The settings file; empty for none. -/
  configPath : String := ""
  /-- The name of the stage to show; empty for none. -/
  mode : String := ""
  /-- The file with the inputs of a batch; empty for none. -/
  batchPath : String := ""
  /-- The assignments to variables, as written. -/
  sets : List String := []
  /-- The limit of a run. -/
  steps : Option Int64 := none
  /-- How many jobs may run at once; zero when not given. -/
  workers : Int64 := 0
  /-- Whether to log what helps to follow the work. -/
  logDebug : Bool := false
  /-- Whether to fold constants. -/
  optimize : Bool := false
  /-- Whether to log to the system journal, too. -/
  journal : Bool := false
deriving DecidableEq, Repr, Inhabited

/-- Why the arguments are wrong. -/
inductive FlagError where
  | missingValue (name : String)
  | badSteps (value : String)
  | badWorkers (value : String)
  | undefinedFlag (argument : String)
deriving DecidableEq, Repr, Inhabited

namespace FlagError

/-- The wording of an error. -/
def message : FlagError → String
  | missingValue name => "flag needs an argument: " ++ name
  | badSteps value => "invalid step limit: " ++ value
  | badWorkers value => "invalid number of workers: " ++ value
  | undefinedFlag argument => "flag provided but not defined: " ++ argument

end FlagError

/-- What ends the reading of arguments early. -/
inductive EarlyExit where
  | help
  | version
  | refused (error : FlagError)
deriving DecidableEq, Repr, Inhabited

namespace Flags

/-- The flags that have a value. -/
def valueFlags : List String :=
  ["-mode", "-config", "-batch", "-set", "-steps", "-j"]

/-- A number that is not below a bound. -/
def readAtLeast (bound : Int64) (value : String) : Option Int64 :=
  match Text.readInt64 value.toList with
  | .ok n => if bound ≤ n then some n else none
  | .error _ => none

/-- The flags with one more.  The argument is how the flag was written, for when there is no such
flag. -/
def set (flags : Flags) (name value argument : String) : Except EarlyExit Flags :=
  match name with
  | "-mode" => .ok { flags with mode := value }
  | "-config" => .ok { flags with configPath := value }
  | "-batch" => .ok { flags with batchPath := value }
  | "-set" => .ok { flags with sets := flags.sets ++ [value] }
  | "-steps" =>
    match readAtLeast (-1) value with
    | some n => .ok { flags with steps := some n }
    | none => .error (.refused (.badSteps value))
  | "-j" =>
    match readAtLeast 1 value with
    | some n => .ok { flags with workers := n }
    | none => .error (.refused (.badWorkers value))
  | "-O" => .ok { flags with optimize := true }
  | "-log-debug" => .ok { flags with logDebug := true }
  | "-journal" => .ok { flags with journal := true }
  | "-h" => .error .help
  | "--help" => .error .help
  | "-version" => .error .version
  | "--version" => .error .version
  | _ => .error (.refused (.undefinedFlag argument))

/-- Whether an argument is a flag, and does not end the flags. -/
def isFlag (argument : String) : Bool :=
  argument.toList.head? == some '-' && argument != "-"

/-- Reads arguments behind others: what the flags say, and the files that follow them. -/
def read (flags : Flags) : List String → Except EarlyExit (Flags × List String)
  | [] => .ok (flags, [])
  | argument :: rest =>
    if argument = "--" then .ok (flags, rest)
    else if !isFlag argument then .ok (flags, argument :: rest)
    else match Text.cut '=' argument.toList with
      | some (name, value) => do
        let flags ← flags.set (String.ofList name) (String.ofList value) argument
        flags.read rest
      | none =>
        if argument ∈ valueFlags then
          match rest with
          | [] => .error (.refused (.missingValue argument))
          | value :: rest => do
            let flags ← flags.set argument value argument
            flags.read rest
        else do
          let flags ← flags.set argument "" argument
          flags.read rest

/-- Reads all arguments. -/
def ofArguments (arguments : List String) : Except EarlyExit (Flags × List String) :=
  ({} : Flags).read arguments

end Flags

end BlockFlow
