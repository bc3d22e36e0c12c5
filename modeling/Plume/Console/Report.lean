import Plume.Script
import Plume.Tree.Outline

/-!
# Reports

A report shows a source, its tree, what it prints, its value and its diagnostic, or why it does not
parse.
-/

namespace Plume.Console

/-- The width of a report's first and last line. -/
def bannerWidth : Nat := 48

/-- A line of `=` with a title in its middle. -/
def banner (title : Text) : Text :=
  let side := repeated ((bannerWidth - title.length - 2) / 2) ("=" : Text)
  side ++ " " ++ title ++ " " ++ side

/-- The lines on what a program prints. White space at the end is left out. -/
def outputLines (output : Text) : List Text :=
  let shown := output.trimEnd
  ["--- Program Output ---", if shown.isEmpty then "(no output)" else shown]

/-- The lines on the value of a program, if it has one. -/
def valueLines : Option Value → List Text
  | some v =>
    [[], "--- Evaluation Result ---", "Output: " ++ v.text, "Type: " ++ v.typeName.text]
  | none => []

/-- The lines on the diagnostic of a run, if there is one. -/
def errorLines : Option Diagnostic → List Text
  | some d => [[], "--- Runtime Error ---", d.text]
  | none => []

/-- The lines on a program and its run. -/
def runLines (program : Program) (result : RunResult) : List Text :=
  "--- Abstract Syntax Tree (AST) ---" :: program.toTree.text :: []
    :: (outputLines result.output ++ valueLines result.value ++ errorLines result.error)

/-- The report on a source. -/
def report (fuel : Nat) (source : Text) : Except Abort Text := do
  let content : List Text ←
    match Script.parse source with
    | .error d => pure ["--- Output ---", "Failed to parse: " ++ d.text]
    | .ok program => runLines program <$> program.run fuel .standard .empty
  return Text.joinLines <|
    [banner "RESULT", "Input: " ++ source, []] ++ content ++ [repeated bannerWidth ("=" : Text), []]

end Plume.Console
