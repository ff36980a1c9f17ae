import ReleaseCut.CommandLine.Scene

/-!
# The command line

Reads a scene from standard input and runs the program in it with the arguments of the command
line. What the run prints goes to the standard streams; the scene is a value, and what becomes of it
is not written anywhere.
-/

open ReleaseCut

/-- Prints a message on its stream. -/
def printMessage (m : Message) : IO Unit := do
  let stream ← match m.stream with
    | .output => IO.getStdout
    | .errors => IO.getStderr
  stream.putStr (m.render false)

/-- Runs the program in the scene on standard input. -/
def main (arguments : List String) : IO UInt32 := do
  match Surroundings.ofText (← (← IO.getStdin).readToEnd) with
  | .error _ =>
    printMessage (.failure "the scene on standard input is malformed")
    return Program.misused
  | .ok surroundings =>
    let report := Program.run surroundings arguments
    report.messages.forM printMessage
    return report.exitCode
