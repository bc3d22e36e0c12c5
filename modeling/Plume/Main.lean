import Plume.Console.CommandLine
import Plume.Text.Utf8

/-!
# The program `plume`

Reads the arguments, the variables, the files and the standard input, and writes what the library
answers. The menu is played here one question at a time.
-/

namespace Plume.Console.Terminal

/-- More tests of a condition than a loop can make in any time there is. -/
def fuel : Nat := Nat.pow 2 62

/-- A text as a string, with the replacement character for unpaired surrogates. -/
def stringOf (t : Text) : String := String.ofList t.characters

/-- Writes a text to the standard output at once. -/
def write (t : Text) : IO Unit := do
  let out ← IO.getStdout
  out.putStr (stringOf t)
  out.flush

/-- Reads a file as UTF-8, or gives the reason why it cannot be read. -/
def readFile (path : Text) : IO (Except Text Text) := do
  try
    let bytes ← IO.FS.readBinFile (stringOf path)
    return .ok (Text.ofChars (Utf8.decode bytes.toList))
  catch
    | .noFileOrDirectory .. => return .error (ReadError.missing.text path)
    | .inappropriateType .. => return .error (ReadError.directory.text path)
    | e => return .error (toString e)

/-- Reads an answer. There is none once the input ends. -/
def readAnswer : IO (Option Text) := do
  return (inputLines (Text.ofString (← (← IO.getStdin).getLine))).head?

/-- What a run that was broken off leaves on the console. -/
def exitOfAbort : Abort → Exit
  | .fault f => .failure f.message
  | .outOfFuel => .failure "The script does not end."

/-- Writes what a command leaves on the console, and gives its exit code. -/
def finish (result : Except Abort Exit) : IO UInt32 := do
  let exit :=
    match result with
    | .ok exit => exit
    | .error a => exitOfAbort a
  write exit.stdout
  (← IO.getStderr).putStr (stringOf exit.stderr)
  return exit.code.toUInt32

/-- Plays the menu from a stage on: shows its events and lets `Menu.Stage.reply` take the answer. -/
partial def playMenu (stage : Menu.Stage) : IO UInt32 := do
  let play (events : List Menu.Event) : IO Unit := events.forM fun e => write e.shown
  play stage.opening
  match stage.reply fuel (← readAnswer) with
  | .error a => finish (.error a)
  | .ok reply =>
    play reply.events
    match reply.next with
    | some next => playMenu next
    | none => return 0

end Plume.Console.Terminal

open Plume Plume.Console Plume.Console.Terminal in
/-- The command `plume`. -/
def main (arguments : List String) : IO UInt32 := do
  let evalVariable := (← IO.getEnv "PLUME_EVAL").map Text.ofString
  let treeVariable := (← IO.getEnv "PLUME_AST").map Text.ofString
  let options := Options.empty.ofArguments (arguments.map Text.ofString)
  match options.action evalVariable treeVariable with
  | .script source showTree => finish (runScript fuel showTree source)
  | .file path showTree =>
    finish (runFile fuel showTree path (← readFile path))
  | .menu => playMenu .choice
