import Plume.Console.Menu
import Plume.Console.Options
import Plume.Console.Script

/-!
# The command line

`plume FILE` runs a script from a file and `plume -e SOURCE` one from the command line; without
either the menu runs on the standard input.
-/

namespace Plume.Console

/-- Why a file cannot be read. -/
inductive ReadError where
  | missing
  | directory
  deriving DecidableEq

/-- The reason why the file at a path cannot be read. -/
def ReadError.text (path : Text) : ReadError → Text
  | .missing => "ENOENT: no such file or directory, open '" ++ path ++ "'"
  | .directory => "EISDIR: illegal operation on a directory, read"

/-- The lines of input, `line` being the start of the first one. LF, CR and CR LF each end a line,
and what stands behind the last end is no line. -/
def inputLinesFrom (line : Text) : Text → List Text
  | [] => []
  | u :: rest =>
    if u == CodeUnit.carriageReturn && rest.head? == some CodeUnit.lineFeed then
      inputLinesFrom line rest
    else if u == CodeUnit.lineFeed || u == CodeUnit.carriageReturn then
      line :: inputLinesFrom [] rest
    else inputLinesFrom (line ++ [u]) rest

/-- The complete lines of input. -/
def inputLines (input : Text) : List Text := inputLinesFrom [] input

/-- Carries out an action, where `read` reads a file and `input` is the standard input. The menu
gets each complete line of the input as an answer. -/
def Action.run (fuel : Nat) (read : Text → Except ReadError Text) (input : Text) :
    Action → Except Abort Exit
  | .script source showTree => runScript fuel showTree source
  | .file path showTree => runFile fuel showTree path ((read path).mapError (·.text path))
  | .menu => do
    let events ← Menu.session fuel (inputLines input)
    return ⟨(events.map Menu.Event.shown).flatten, [], 0⟩

end Plume.Console
