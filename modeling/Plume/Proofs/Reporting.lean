import Plume.Console.Script
import Plume.Editor.Page
import Plume.Proofs.Sequencing

/-!
# One run on the console and in the editor

A source can be run for its result, on the console with or without the outline of its tree, and in
the editor. Each of them is the same run, and differs only in how its result is written down
(`Console.runScript_eq_map`, `Editor.runSource_eq_map`). So what the console writes can be told from
what the editor shows, and both from the result (`Script.reports_same_run`).
-/

namespace Plume

/-- The diagnostics of a run as the console writes them, each on a line of its own. -/
def RunResult.errorText (r : RunResult) : Text :=
  (r.error.toList.map fun d => d.text.endLine).flatten

namespace Script

variable {source : Text} {p : Program}

/-- A script that is parsed is run from the empty environment. -/
theorem evaluate_of_parse_eq_ok (h : parse source = .ok p) (fuel : Nat) :
    evaluate fuel source = p.run fuel .standard .empty := by
  rw [evaluate, run, h]

/-- A script that is not parsed has its diagnostic as its result. -/
theorem evaluate_of_parse_eq_error {d : Diagnostic} (h : parse source = .error d) (fuel : Nat) :
    evaluate fuel source = .ok ⟨[], some d, .empty, none⟩ := by
  rw [evaluate, run, h]

/-- The outline of the tree of a source, if it parses. -/
def outline? (source : Text) : Option Text := (parse source).toOption.map fun p => p.toTree.text

/-- A script that is parsed has an outline. -/
theorem outline?_of_parse_eq_ok (h : parse source = .ok p) :
    outline? source = some p.toTree.text := by
  rw [outline?, h]
  rfl

/-- A script that is not parsed has no outline. -/
theorem outline?_of_parse_eq_error {d : Diagnostic} (h : parse source = .error d) :
    outline? source = none := by
  rw [outline?, h]
  rfl

/-- A run that has returned returns the same with more fuel. -/
theorem evaluate_mono {fuel fuel' : Nat} (hfuel : fuel ≤ fuel') {r : RunResult}
    (h : evaluate fuel source = .ok r) : evaluate fuel' source = .ok r := by
  cases hparse : parse source with
  | error d =>
    rw [evaluate_of_parse_eq_error hparse] at h ⊢
    exact h
  | ok p =>
    rw [evaluate_of_parse_eq_ok hparse] at h ⊢
    exact Program.run_mono hfuel h

end Script

/-! ## The console -/

namespace Console

/-- What a run of a source with the given result leaves on the console. -/
def Exit.ofResult (showTree : Bool) (source : Text) (r : RunResult) : Exit where
  stdout := if showTree then (Script.outline? source).elim [] Text.endLine ++ r.output else r.output
  stderr := r.errorText
  code := if r.error.isNone then 0 else 1

/-- On the console a source is run as it is elsewhere. -/
theorem runScript_eq_map (fuel : Nat) (showTree : Bool) (source : Text) :
    runScript fuel showTree source
      = (Script.evaluate fuel source).map (Exit.ofResult showTree source) := by
  cases hparse : Script.parse source with
  | error d =>
    simp [runScript, hparse, Script.evaluate_of_parse_eq_error hparse, Except.map, Exit.ofResult,
      Script.outline?_of_parse_eq_error hparse, RunResult.errorText, Exit.failure]
  | ok p =>
    simp only [runScript, hparse, Script.evaluate_of_parse_eq_ok hparse]
    cases p.run fuel .standard .empty with
    | error a => rfl
    | ok r =>
      obtain ⟨output, error, environment, value⟩ := r
      have houtline := Script.outline?_of_parse_eq_ok hparse
      cases error <;>
        simp [bind, Except.bind, pure, Except.pure, Except.map, Exit.ofResult, houtline,
          RunResult.errorText]

end Console

/-! ## The editor -/

namespace Editor

/-- What the editor shows of a run of a source with the given result. -/
def Shown.ofResult (source : Text) (r : RunResult) : Shown where
  tree := (Script.outline? source).getD []
  output := r.output ++ r.error.elim [] Diagnostic.text
  succeeded := r.error.isNone

/-- In the editor a source is run as it is elsewhere. -/
theorem runSource_eq_map (fuel : Nat) (source : Text) :
    runSource fuel source = (Script.evaluate fuel source).map (Shown.ofResult source) := by
  cases hparse : Script.parse source with
  | error d =>
    simp [runSource, hparse, Script.evaluate_of_parse_eq_error hparse, Except.map, Shown.ofResult,
      Script.outline?_of_parse_eq_error hparse]
  | ok p =>
    simp only [runSource, hparse, Script.evaluate_of_parse_eq_ok hparse]
    cases p.run fuel .standard .empty with
    | error a => rfl
    | ok r =>
      simp [bind, Except.bind, pure, Except.pure, Except.map, Shown.ofResult,
        Script.outline?_of_parse_eq_ok hparse]

end Editor

/-! ## All of them -/

/-- What the console is left with, without the outline and with it, and what the editor shows, are
reports of the same run of a source. -/
structure SameReport (source : Text) (r : RunResult) (plain outlined : Console.Exit)
    (shown : Editor.Shown) : Prop where
  stdout : plain.stdout = r.output
  stderr : plain.stderr = (r.error.toList.map fun d => d.text.endLine).flatten
  code : plain.code = 0 ↔ r.error = none
  outlinedStderr : outlined.stderr = plain.stderr
  outlinedCode : outlined.code = plain.code
  outlinedStdout : ∀ p, Script.parse source = .ok p →
    outlined.stdout = shown.tree.endLine ++ r.output
  unparsedStdout : ∀ d, Script.parse source = .error d → outlined.stdout = []
  succeeded : shown.succeeded = true ↔ plain.code = 0
  output : shown.output ++ (if r.error.isSome then [CodeUnit.lineFeed] else [])
    = plain.stdout ++ plain.stderr

/-- The console and the editor report one result alike. -/
theorem sameReport_ofResult {source : Text} {r : RunResult} {fuel : Nat}
    (h : Script.evaluate fuel source = .ok r) :
    SameReport source r (.ofResult false source r) (.ofResult true source r)
      (.ofResult source r) where
  stdout := rfl
  stderr := rfl
  code := by simp [Console.Exit.ofResult]
  outlinedStderr := rfl
  outlinedCode := rfl
  outlinedStdout p hp := by
    simp [Console.Exit.ofResult, Editor.Shown.ofResult, Script.outline?_of_parse_eq_ok hp]
  unparsedStdout d hd := by
    -- nothing has been run, so nothing has been printed
    rw [Script.evaluate_of_parse_eq_error hd] at h
    cases h
    simp [Console.Exit.ofResult, Script.outline?_of_parse_eq_error hd]
  succeeded := by simp [Console.Exit.ofResult, Editor.Shown.ofResult]
  output := by
    simp only [Console.Exit.ofResult, Editor.Shown.ofResult, RunResult.errorText]
    cases r.error with
    | none => simp
    | some d => simp [Text.endLine]

namespace Script

/-- If the run of a source returns, then with enough fuel it returns on the console and in the
editor as well, and all of them report the one result. -/
theorem reports_same_run {source : Text} {r : RunResult} {fuel fuel' : Nat}
    (h : evaluate fuel source = .ok r) (hfuel : fuel ≤ fuel') :
    ∃ plain outlined shown, Console.runScript fuel' false source = .ok plain
      ∧ Console.runScript fuel' true source = .ok outlined
      ∧ Editor.runSource fuel' source = .ok shown
      ∧ SameReport source r plain outlined shown := by
  have hevaluate := evaluate_mono hfuel h
  refine ⟨_, _, _, ?_, ?_, ?_, sameReport_ofResult hevaluate⟩
  · rw [Console.runScript_eq_map, hevaluate]
    rfl
  · rw [Console.runScript_eq_map, hevaluate]
    rfl
  · rw [Editor.runSource_eq_map, hevaluate]
    rfl

/-- A script that prints a value and then reads a name that is not bound. -/
def printThenFail : Text := "print(\"a\"); b"

theorem reports_same_run_printThenFail : ∃ plain outlined shown,
    evaluate 0 printThenFail = .ok ⟨"a\n", some ⟨.undefinedName "b", ⟨1, 13⟩⟩, .empty, none⟩
      ∧ Console.runScript 1 false printThenFail = .ok plain
      ∧ Console.runScript 1 true printThenFail = .ok outlined
      ∧ Editor.runSource 1 printThenFail = .ok shown
      ∧ SameReport printThenFail ⟨"a\n", some ⟨.undefinedName "b", ⟨1, 13⟩⟩, .empty, none⟩ plain
        outlined shown := by
  obtain ⟨whole, printed, text, stop, hparse⟩ : ∃ whole printed text stop,
      parse printThenFail = .ok ⟨whole, [.print printed (.string text "a"),
        .reference ⟨⟨1, 13⟩, stop⟩ "b"]⟩ := ⟨_, _, _, _, rfl⟩
  have hevaluate : evaluate 0 printThenFail
      = .ok ⟨"a\n", some ⟨.undefinedName "b", ⟨1, 13⟩⟩, .empty, none⟩ := by
    rw [evaluate_of_parse_eq_ok hparse]
    rfl
  obtain ⟨plain, outlined, shown, hreports⟩ := reports_same_run hevaluate (Nat.zero_le 1)
  exact ⟨plain, outlined, shown, hevaluate, hreports⟩

end Script

end Plume
