import Plume.Script
import Plume.Tree.Outline

/-!
# Scripts on the console

A script writes what it prints to the standard output and its diagnostic to the standard error. The
exit code is 1 if there is a diagnostic and 0 if there is none.
-/

namespace Plume.Console

/-- What a command leaves on the console. -/
structure Exit where
  stdout : Text
  stderr : Text
  code : Nat
  deriving DecidableEq

/-- The end of a command that fails with a message. -/
def Exit.failure (message : Text) : Exit := ⟨[], message.endLine, 1⟩

/-- Runs a source. The outline of its tree comes first if `showTree` says so. -/
def runScript (fuel : Nat) (showTree : Bool) (source : Text) : Except Abort Exit :=
  match Script.parse source with
  | .error d => .ok (.failure d.text)
  | .ok program => do
    let result ← program.run fuel .standard .empty
    let stdout := if showTree then program.toTree.text.endLine ++ result.output else result.output
    match result.error with
    | some d => return ⟨stdout, d.text.endLine, 1⟩
    | none => return ⟨stdout, [], 0⟩

/-- Runs the source that was read from a file, or reports why none could be read. -/
def runFile (fuel : Nat) (showTree : Bool) (path : Text) (content : Except Text Text) :
    Except Abort Exit :=
  match content with
  | .ok source => runScript fuel showTree source
  | .error reason => .ok (.failure ("Cannot read " ++ path ++ ": " ++ reason))

end Plume.Console
