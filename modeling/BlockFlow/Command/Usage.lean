/-!
# Texts about the command

What the command says about itself: how it is used, and which version of it this is.
-/

namespace BlockFlow.Command

/-- The version of the command. -/
def versionName : String :=
  "dev"

/-- The version of the command, with where it was built from and when. -/
def versionText : String :=
  "blockc version " ++ versionName ++ "\n  commit: none\n  built:  unknown\n"

/-- How the command is used, in one line. -/
def shortUsage : String :=
  "usage: blockc [-mode mode] [-config file.cue] [-set var=value] [file]"

/-- The lines about the flags. -/
def longUsage : List String :=
  ["Output:",
   "  -mode mode        parse, ast, cfg (default), cfg-dot, ssa, ssa-dot, run",
   "                      parse    debug graph of the raw parse tree",
   "                      ast      debug graph of the normalized tree",
   "                      cfg      control-flow graph listing",
   "                      cfg-dot  control-flow graph as Graphviz input",
   "                      ssa      SSA listing",
   "                      ssa-dot  SSA form as Graphviz input",
   "                      run      interpret the program and print its result",
   "",
   "Execution:",
   "  -O                fold constant expressions after lowering",
   "  -set var=value    set a variable before running (multiple allowed)",
   "  -batch file       run once per line of var=value assignments",
   "  -steps N          stop after entering N blocks (-1: no limit)",
   "  -j N              batch workers (default: number of CPUs)",
   "",
   "Configuration and logging:",
   "  -config file.cue  load settings from a CUE file; flags override it",
   "  -log-debug        log pipeline stages to stderr",
   "  -journal          also log to the systemd journal",
   "",
   "Other:",
   "  -h, --help        show this help message",
   "  -version          show blockc version and exit"]

/-- All about how the command is used. -/
def helpText : String :=
  "blockc " ++ versionName ++ "\n\n" ++ shortUsage ++ "\n\n"
    ++ String.join (longUsage.map fun line => line ++ "\n")

end BlockFlow.Command
