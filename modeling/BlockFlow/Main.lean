import Std.Time.DateTime.Timestamp
import BlockFlow.Command.Basic
import BlockFlow.Log.Clock
import BlockFlow.Log.RunName

/-!
# The command, run

Gathers what the command needs, carries it out, and writes what it reports.  The report is made in
one piece, so log lines all show the time at which it was begun, and no time passes between stages.
-/

namespace BlockFlow

/-- Reads a file, or says why it cannot be read. -/
def readFile (name : String) : IO (Except String (List UInt8)) := do
  try
    return .ok (← IO.FS.readBinFile name).toList
  catch
    | .noFileOrDirectory .. => return .error ("open " ++ name ++ ": no such file or directory")
    | .permissionDenied .. => return .error ("open " ++ name ++ ": permission denied")
    | e => return .error ("open " ++ name ++ ": " ++ toString e)

/-- Reads a stream to its end. -/
partial def readAll (stream : IO.FS.Stream) (bytes : ByteArray) : IO ByteArray := do
  let chunk ← stream.read 65536
  if chunk.isEmpty then return bytes
  readAll stream (bytes ++ chunk)

/-- Gathers what the command finds around it. -/
def gather (arguments : List String) : IO Environment := do
  let files ← (Command.mentionedFiles arguments).mapM fun name => do
    return (name, ← readFile name)
  let stdin ←
    if Command.mayReadInput arguments then readAll (← IO.getStdin) .empty else pure .empty
  let now ← Std.Time.Timestamp.now
  let bytes ← IO.getRandomBytes 16
  return {
    stdin := stdin.toList
    file := fun name => (files.lookup name).getD (.error ("open " ++ name ++ ": not read"))
    stamps := ⟨Clock.text now.toMillisecondsSinceUnixEpoch.val.toNat, "0s"⟩
    run := runName (bytes.toList.map UInt8.toNat) }

end BlockFlow

/-- The command. -/
def main (arguments : List String) : IO UInt32 := do
  let report := BlockFlow.Command.run (← BlockFlow.gather arguments) arguments
  IO.print report.stdout
  IO.eprint report.stderr
  return report.exit.toUInt32
