import PipeQuery.CommandLine

/-!
# The program

Reads the arguments or the standard input, and hands on what `CommandLine.run` answers.
-/

open PipeQuery

/-- Runs the program. The standard input is read only when there are no arguments. -/
def main (arguments : List String) : IO UInt32 := do
  let input ← if arguments.isEmpty then (← IO.getStdin).readBinToEnd else pure .empty
  let answer := CommandLine.run arguments input
  (← IO.getStdout).putStr answer.output
  (← IO.getStderr).putStr answer.errors
  return answer.exitCode.toUInt32
