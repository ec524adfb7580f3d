import GuardedLisp.CommandLine.Session
import Std.Time.DateTime.Timestamp

/-!
# The command

Reads the arguments, the input if it is needed, and the time, and writes what
`CommandLine.run` makes of them.
-/

open GuardedLisp.CommandLine

def main (args : List String) : IO UInt32 := do
  let now ← Std.Time.Timestamp.now
  let input ← if readsInput args then (← IO.getStdin).readToEnd else pure ""
  let outcome := run args input now.toMillisecondsSinceUnixEpoch.val.toNat
  (← IO.getStdout).putStr outcome.stdout
  (← IO.getStderr).putStr outcome.stderr
  return outcome.code.toUInt32
