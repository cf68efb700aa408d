/-
StagedQuery/Main.lean

The program.  All it does is hand its arguments and its standard input over and
write what comes back; standard input is read only where it is asked for and is
not a terminal.
-/
import StagedQuery.Cli.Program

/-- All bytes of the standard input, unless it is a terminal. -/
def readStdin : IO (Option ByteArray) := do
  let stdin ← IO.getStdin
  if ← stdin.isTty then return none
  return some (← stdin.readBinToEnd)

/-- Run on the arguments given. -/
def main (arguments : List String) : IO UInt32 := do
  let stdin ← if StagedQuery.Cli.readsInput arguments then readStdin else pure none
  let outcome := StagedQuery.Cli.run arguments stdin
  (← IO.getStdout).putStr outcome.stdout
  (← IO.getStderr).putStr outcome.stderr
  return outcome.code
