import BlockFlow.Command.Assignment
import BlockFlow.Command.Flags
import BlockFlow.Command.Usage
import BlockFlow.Log.Line
import BlockFlow.Program.Compile
import BlockFlow.Program.Run
import BlockFlow.Settings.File
import BlockFlow.Text.Utf8

/-!
# The command

The command reads a program from a file or the standard input and prints one stage of it, or the
result of running it.  What it depends on is an `Environment`, and what it does is a `Report`: the
exit code and what goes to the two outputs.

Everything that goes wrong is one line on the error output, behind the log lines written up to then.
The settings come from a file, if one is named, and flags override them.
-/

namespace BlockFlow

/-- What the command finds around it. -/
structure Environment where
  /-- The bytes of the standard input. -/
  stdin : List UInt8
  /-- The bytes of a file, or why it cannot be read. -/
  file : String → Except String (List UInt8)
  /-- The texts for times in log lines. -/
  stamps : Stamps
  /-- The name of this run of the command. -/
  run : String

/-- What the command does. -/
structure Report where
  /-- The exit code. -/
  exit : Nat
  /-- What goes to the standard output. -/
  stdout : String
  /-- What goes to the error output. -/
  stderr : String
deriving DecidableEq, Repr, Inhabited

namespace Report

/-- Prints a text and nothing else. -/
def printed (text : String) : Report :=
  ⟨0, text, ""⟩

/-- Reports what is wrong, behind log lines. -/
def failure (log message : String) : Report :=
  ⟨1, "", log ++ "blockc: " ++ message ++ "\n"⟩

end Report

namespace Command

/-! ### Settings -/

/-- The settings that the flags name a file for; unset ones if they name none. -/
def fileSettings (env : Environment) (flags : Flags) : Except String Settings :=
  if flags.configPath = "" then .ok {}
  else do
    let bytes ← env.file flags.configPath
    match Settings.ofText? (Text.decode bytes) with
    | some settings => .ok settings
    | none => .error ("config " ++ flags.configPath ++ ": ...")

/-- The settings that flags override, assignments to variables aside. -/
def override (settings : Settings) (flags : Flags) : Settings :=
  let mode := if flags.mode = "" then settings.mode else flags.mode
  { settings with
    mode := if mode = "" then Stage.cfg.name else mode
    maxSteps := (flags.steps.map Int64.toInt).getD settings.maxSteps
    workers := if 0 < flags.workers then flags.workers.toInt else settings.workers
    journal := settings.journal || flags.journal
    optimize := settings.optimize || flags.optimize
    logLevel := if flags.logDebug then "debug" else settings.logLevel }

/-- The settings of the command. -/
def settings (env : Environment) (flags : Flags) : Except String Settings := do
  let base ← fileSettings env flags
  let inputs ← (Inputs.ofAssignments (flags.sets.map String.toList)).mapError
    AssignmentError.message
  let settings := override base flags
  .ok { settings with inputs := settings.inputs.update inputs }

/-- The threshold of the log: without a level, only what is worth a look. -/
def threshold (settings : Settings) : Except String Level :=
  if settings.logLevel = "" then .ok .warn
  else (Level.parse settings.logLevel).mapError fun _ => "invalid log level: " ++ settings.logLevel

/-! ### Log lines -/

/-- The line of a record that belongs to this run of the command. -/
def ownLine (env : Environment) (logger : Logger) (r : LogRecord) : String :=
  logger.line env.stamps (some env.run) r

/-- The lines of records that belong to this run of the command. -/
def ownLines (env : Environment) (logger : Logger) (records : List LogRecord) : String :=
  String.join (records.map (ownLine env logger))

/-- The report of a command that came to its end. -/
def done (env : Environment) (logger : Logger) (log output : String) : Report :=
  ⟨0, output, log ++ ownLine env logger (.debug "done" [])⟩

/-! ### Running -/

/-- The line that shows the result of a job. -/
def resultLine (r : JobResult) : String :=
  match r.outcome.error? with
  | some e => "error: " ++ e.report ++ "\n"
  | none => toString r.outcome.value.toInt ++ "\n"

/-- Runs a program once per line of a file of assignments. -/
def runBatch (env : Environment) (logger : Logger) (log path : String) (settings : Settings)
    (p : Program) : Report :=
  match env.file path with
  | .error reason => .failure log ("cannot read batch file: " ++ reason)
  | .ok bytes =>
    match Inputs.ofBatchFile (Text.decode bytes) with
    | .error (number, e) => .failure log (path ++ ":" ++ toString number ++ ": " ++ e.message)
    | .ok inputs =>
      match p.runBatch settings inputs with
      | none => .failure log onlyParsedMessage
      | some report =>
        let log := log ++ ownLines env logger report.records
        let output := String.join (report.results.map resultLine)
        if BatchReport.failures report.results = 0 then done env logger log output
        else ⟨1, output, log⟩

/-- Runs a program once. -/
def runOnce (env : Environment) (logger : Logger) (log : String) (settings : Settings)
    (p : Program) : Report :=
  match p.run settings none with
  | none => .failure log onlyParsedMessage
  | some report =>
    match report.outcome.error? with
    | some e => .failure log e.report
    | none =>
      done env logger (log ++ ownLines env logger report.records)
        (toString report.outcome.value.toInt ++ "\n")

/-! ### Stages -/

/-- Draws a stage of a program. -/
def draw (env : Environment) (logger : Logger) (log : String) (stage : Stage) (p : Program) :
    Report :=
  match p.draw stage.name with
  | .ok drawing => done env logger log drawing.text
  | .error e => .failure log e.message

/-- Shows the stage of a program that the settings name. -/
def showStage (env : Environment) (logger : Logger) (log batchPath : String) (settings : Settings)
    (p : Program) : Report :=
  match Stage.ofName? settings.mode with
  | some .cfg => done env logger log p.listing
  | some .ssa => done env logger log p.ssaListing
  | some .run =>
    if batchPath = "" then runOnce env logger log settings p
    else runBatch env logger log batchPath settings p
  | some stage => draw env logger log stage p
  | none => .failure log ("unknown mode: " ++ settings.mode)

/-! ### The whole -/

/-- The bytes of the program: those of a file, or of the standard input when no file is named or a
dash stands for it. -/
def programBytes (env : Environment) : List String → Except String (List UInt8)
  | [] => .ok env.stdin
  | file :: _ => if file = "-" then .ok env.stdin else env.file file

/-- Compiles the program and shows a stage of it. -/
def execute (env : Environment) (logger : Logger) (batchPath : String) (settings : Settings)
    (files : List String) : Report :=
  let log := ownLine env logger
    (.debug "start" [⟨"mode", .text settings.mode⟩, ⟨"version", .text versionName⟩])
  match programBytes env files with
  | .error reason => .failure log ("cannot read program: " ++ reason)
  | .ok source =>
    let compiled := Program.compile settings source
    let log := log ++ String.join (compiled.records.map (logger.line env.stamps none))
    match compiled.result with
    | .ok p => showStage env logger log batchPath settings p
    | .error e =>
      .failure (log ++ ownLine env logger (.debug "compile failed" [⟨"error", .text e.message⟩]))
        e.message

/-- Carries out the command for flags and files. -/
def runFlags (env : Environment) (flags : Flags) (files : List String) : Report :=
  if 1 < files.length then .failure "" shortUsage
  else match settings env flags with
    | .error message => .failure "" message
    | .ok settings =>
      match threshold settings with
      | .error message => .failure "" message
      | .ok level => execute env { threshold := level } flags.batchPath settings files

/-- The files that the command may read. -/
def mentionedFiles (arguments : List String) : List String :=
  match Flags.ofArguments arguments with
  | .ok (flags, files) => [flags.configPath, flags.batchPath] ++ files
  | .error _ => []

/-- Whether the command may read the standard input. -/
def mayReadInput (arguments : List String) : Bool :=
  match Flags.ofArguments arguments with
  | .ok (_, files) => files = [] || files = ["-"]
  | .error _ => false

/-- Carries out the command. -/
def run (env : Environment) (arguments : List String) : Report :=
  match Flags.ofArguments arguments with
  | .ok (flags, files) => runFlags env flags files
  | .error .help => .printed helpText
  | .error .version => .printed versionText
  | .error (.refused e) => .failure "" e.message

end Command

end BlockFlow
