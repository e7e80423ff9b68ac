import RoutePattern.CommandLine.Help
import RoutePattern.CommandLine.Run

/-!
# The program

Reads the arguments and the file that they name, runs the command and prints what comes of it. The
exit code is 0 after an answer, 1 after a failure and 2 when the arguments are misused.
-/

namespace RoutePattern.CommandLine

/-- The text of a file, or `none` if it cannot be read. -/
def readText (file : Text) : IO (Option Text) := do
  try
    return some (← IO.FS.readFile (String.ofList file)).toList
  catch _ =>
    return none

/-- Prints the outcome of a command and gives the exit code. -/
def report : Outcome → IO UInt32
  | .printed output => do
    IO.print (String.ofList output)
    return 0
  | .failed message => do
    IO.eprintln ("error: " ++ String.ofList message)
    return 1
  | .unreadableTable => do
    IO.eprintln "error: the file holds no route table"
    return 1

/-- Runs the command that the arguments ask for and gives the exit code. -/
def runProgram (arguments : List Text) : IO UInt32 := do
  match readCommand arguments with
  | .error .misuse =>
    IO.eprintln "error: bad usage; try --help"
    return 2
  | .error (.help topic) =>
    IO.print (String.ofList topic.page.render)
    return 0
  | .ok command =>
    let content? ← match command.file? with
      | some file => readText file
      | none => pure none
    report (command.run content?)

end RoutePattern.CommandLine

/-- The program. -/
def main (arguments : List String) : IO UInt32 :=
  RoutePattern.CommandLine.runProgram (arguments.map String.toList)
