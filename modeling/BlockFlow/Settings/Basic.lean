import BlockFlow.Machine.Inputs

/-!
# Settings

The settings say which stage of a program is shown, how far a run may go, and what is logged.  A
setting that is zero or empty is unset; `Settings.withDefaults` fills in what an unset one stands
for.
-/

namespace BlockFlow

/-- The stages at which a program can be looked at. -/
inductive Stage where
  /-- The tree of its grammar. -/
  | parse
  /-- The normal tree. -/
  | ast
  /-- The control-flow graph, as a listing. -/
  | cfg
  /-- The control-flow graph, as a drawing. -/
  | cfgDot
  /-- The function in static single assignment form, as a listing. -/
  | ssa
  /-- The function in static single assignment form, as a drawing. -/
  | ssaDot
  /-- The result of running it. -/
  | run
deriving DecidableEq, Repr, Inhabited

namespace Stage

/-- All stages. -/
def all : List Stage :=
  [parse, ast, cfg, cfgDot, ssa, ssaDot, run]

/-- The name of a stage. -/
def name : Stage → String
  | parse => "parse"
  | ast => "ast"
  | cfg => "cfg"
  | cfgDot => "cfg-dot"
  | ssa => "ssa"
  | ssaDot => "ssa-dot"
  | run => "run"

/-- The stage of a name. -/
def ofName? (name : String) : Option Stage :=
  all.find? fun stage => stage.name = name

end Stage

/-- How a program is compiled, shown and run. -/
structure Settings where
  /-- The number of blocks that a run may enter; below zero there is no limit. -/
  maxSteps : Int := 0
  /-- The name of the stage to show. -/
  mode : String := ""
  /-- The least level of the records to log. -/
  logLevel : String := ""
  /-- Whether the system journal receives the records, too. -/
  journal : Bool := false
  /-- Whether constants are folded. -/
  optimize : Bool := false
  /-- How many jobs of a batch may run at once. -/
  workers : Int := 0
  /-- Values for variables. -/
  inputs : Inputs := .empty
deriving DecidableEq, Inhabited

namespace Settings

/-- The limit of a run for which none is set. -/
def defaultMaxSteps : Int :=
  1000000

/-- The settings with the unset ones filled in. -/
def withDefaults (s : Settings) : Settings :=
  { s with
    maxSteps := if s.maxSteps = 0 then defaultMaxSteps else s.maxSteps
    mode := if s.mode = "" then Stage.cfg.name else s.mode
    logLevel := if s.logLevel = "" then "info" else s.logLevel }

/-- The limit as a machine takes it, for which zero is no limit. -/
def stepLimit (s : Settings) : Int :=
  if s.maxSteps < 0 then 0 else s.maxSteps

end Settings

end BlockFlow
