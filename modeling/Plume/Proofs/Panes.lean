import Mathlib.Data.List.Induction
import Plume.Proofs.Editing
import Plume.Proofs.Reporting
import Plume.Proofs.Sharing

/-!
# The panes of the editor page

A click that runs the script or clears the panes decides what the panes hold, whatever they held
before (`Leaves`). Edits and copied links leave the panes alone, and no click touches the script. So
after any number of actions the panes hold what the last deciding click has left in them, given the
script of that moment (`LastLeft`, `Page.panes_of_actions`).

The fuel of a page bounds the loops of the scripts that it runs. A run that has ended, be it in a
fault, ends the same with more fuel, and so does a page on which all runs have ended
(`Page.performAll_mono`). That is why what a page reaches is stated without fuel (`Page.Reaches`).
-/

namespace Plume.Editor

variable {script source : Text} {fuel fuel' : Nat} {around : Surroundings} {button : Button}
  {page page' opened reached : Page} {action : Action} {actions before after : List Action}

/-! ## Runs that end -/

/-- The run of a source ends: it shows something, or it meets a fault. -/
def EndsIn (source : Text) (outcome : Except Fault Shown) : Prop :=
  ∃ fuel, runSource fuel source = outcome.mapError Abort.fault

/-- A run that has ended ends the same with more fuel. -/
theorem runSource_eq_of_le (hfuel : fuel ≤ fuel')
    (h : runSource fuel source ≠ .error .outOfFuel) :
    runSource fuel' source = runSource fuel source := by
  cases hparse : Script.parse source with
  | error d => simp only [runSource, hparse]
  | ok p =>
    have hended : p.run fuel .standard .empty ≠ .error .outOfFuel := by
      intro hout
      simp only [runSource, hparse, hout] at h
      exact h rfl
    simp only [runSource, hparse, Program.run_eq_of_le hfuel hended]

/-- A script ends in one way at most, whatever the fuel. -/
theorem EndsIn.unique {outcome outcome' : Except Fault Shown} (h : EndsIn source outcome)
    (h' : EndsIn source outcome') : outcome = outcome' := by
  obtain ⟨fuel, h⟩ := h
  obtain ⟨fuel', h'⟩ := h'
  have hended : ∀ x : Except Fault Shown, x.mapError Abort.fault ≠ .error .outOfFuel := by
    rintro (f | shown) ⟨⟩
  have hmax := runSource_eq_of_le (Nat.le_max_left fuel fuel') (h.trans_ne (hended outcome))
  have hmax' := runSource_eq_of_le (Nat.le_max_right fuel fuel') (h'.trans_ne (hended outcome'))
  have hsame := h.symm.trans (hmax.symm.trans (hmax'.trans h'))
  rcases outcome with f | shown <;> rcases outcome' with f' | shown' <;> cases hsame <;> rfl

/-! ## What clicks leave in the panes -/

/-- What stands in the two panes. -/
structure Panes where
  tree : Text
  output : Text
  deriving DecidableEq

/-- Panes with nothing in them. -/
def Panes.empty : Panes := ⟨[], []⟩

/-- The panes of a page. -/
def Page.panes (page : Page) : Panes := ⟨page.treePane, page.outputPane⟩

/-- The buttons that run the script. -/
def Button.Runs (button : Button) : Prop := button = .run ∨ button = .showTree

/-- What a click leaves in the panes when the editor holds the given script. A click that copies a
link leaves nothing there. -/
inductive Leaves (script : Text) : Button → Panes → Prop
  | clear : Leaves script .clear .empty
  | run {shown : Shown} : EndsIn script (.ok shown) → Leaves script .run ⟨[], shown.output⟩
  | showTree {shown : Shown} : EndsIn script (.ok shown) →
      Leaves script .showTree ⟨shown.tree, shown.output⟩
  | fault {button : Button} {f : Fault} : button.Runs → EndsIn script (.error f) →
      Leaves script button .empty

/-- The button and the script decide what a click leaves. -/
theorem Leaves.unique {panes panes' : Panes} (h : Leaves script button panes)
    (h' : Leaves script button panes') : panes = panes' := by
  cases h with
  | clear =>
    cases h' with
    | clear => rfl
    | fault => rfl
  | run hends =>
    cases h' with
    | run hends' =>
      cases hends.unique hends'
      rfl
    | fault _ hends' => cases hends.unique hends'
  | showTree hends =>
    cases h' with
    | showTree hends' =>
      cases hends.unique hends'
      rfl
    | fault _ hends' => cases hends.unique hends'
  -- a button that clears does so whether or not the script is at fault
  | fault _ hends =>
    cases h' with
    | clear => rfl
    | run hends' => cases hends.unique hends'
    | showTree hends' => cases hends.unique hends'
    | fault => rfl

/-- A button that runs the script leaves something only if the script comes to its end. -/
theorem Leaves.exists_endsIn {panes : Panes} (h : Leaves script button panes)
    (hbutton : button.Runs) : ∃ outcome, EndsIn script outcome := by
  cases h with
  | clear => rcases hbutton with h | h <;> cases h
  | run hends => exact ⟨_, hends⟩
  | showTree hends => exact ⟨_, hends⟩
  | fault _ hends => exact ⟨_, hends⟩

/-- The actions that leave the panes alone: edits, and clicks that copy a link. -/
def Action.IsQuiet : Action → Prop
  | .edit _ => True
  | .click button => button = .copyLink

/-- The edits among actions. -/
def editsOf : List Action → List Edit :=
  List.filterMap fun
    | .edit e => some e
    | .click _ => none

theorem editsOf_append (before after : List Action) :
    editsOf (before ++ after) = editsOf before ++ editsOf after :=
  List.filterMap_append

theorem TextArea.editAll_append (area : TextArea) (edits more : List Edit) :
    area.editAll (edits ++ more) = (area.editAll edits).editAll more :=
  List.foldl_append

namespace Page

/-- The script in the editor after actions of which only the edits count. -/
def scriptAfter (page : Page) (actions : List Action) : Text :=
  (page.area.editAll (editsOf actions)).value

/-! ## One action -/

/-- A run that ends decides what the panes hold, and leaves the script alone. -/
theorem leaves_of_evaluate {showTree : Bool} (h : page.evaluate fuel showTree = .ok page') :
    page'.area = page.area
      ∧ Leaves page.area.value (if showTree then .showTree else .run) page'.panes := by
  unfold evaluate at h
  cases hrun : runSource fuel page.area.value with
  | ok shown =>
    rw [hrun] at h
    cases h
    cases showTree with
    | false => exact ⟨rfl, .run ⟨fuel, hrun⟩⟩
    | true => exact ⟨rfl, .showTree ⟨fuel, hrun⟩⟩
  | error abort =>
    rw [hrun] at h
    cases abort with
    -- a fault leaves the panes as they were cleared
    | fault f =>
      cases h
      refine ⟨rfl, .fault ?_ ⟨fuel, hrun⟩⟩
      cases showTree with
      | false => exact .inl rfl
      | true => exact .inr rfl
    | outOfFuel => cases h

/-- A script that comes to its end can be shown. -/
theorem exists_evaluate {outcome : Except Fault Shown} (h : EndsIn page.area.value outcome)
    (showTree : Bool) : ∃ page' fuel, page.evaluate fuel showTree = .ok page' := by
  obtain ⟨fuel, hrun⟩ := h
  unfold evaluate
  cases outcome with
  | ok shown => exact ⟨_, fuel, by rw [hrun]; rfl⟩
  | error f => exact ⟨_, fuel, by rw [hrun]; rfl⟩

/-- What is shown stays as it is with more fuel. -/
theorem evaluate_mono (hfuel : fuel ≤ fuel') {showTree : Bool}
    (h : page.evaluate fuel showTree = .ok page') : page.evaluate fuel' showTree = .ok page' := by
  have hended : runSource fuel page.area.value ≠ .error .outOfFuel := by
    intro hout
    rw [evaluate, hout] at h
    cases h
  rw [evaluate, runSource_eq_of_le hfuel hended]
  exact h

/-- Copying a link changes neither the script nor the panes. -/
theorem copyLink_keeps (around : Surroundings) (page : Page) :
    (page.copyLink around).area = page.area ∧ (page.copyLink around).panes = page.panes := by
  unfold copyLink
  split <;> exact ⟨rfl, rfl⟩

/-- No click changes the script. -/
theorem area_of_click (h : page.click fuel around button = .ok page') :
    page'.area = page.area := by
  cases button with
  | run => exact (leaves_of_evaluate h).1
  | showTree => exact (leaves_of_evaluate h).1
  | clear =>
    cases h
    rfl
  | copyLink =>
    cases h
    exact (copyLink_keeps around page).1

/-- All clicks but those that copy a link decide what the panes hold. -/
theorem leaves_of_click (h : page.click fuel around button = .ok page')
    (hbutton : button ≠ .copyLink) : Leaves page.area.value button page'.panes := by
  cases button with
  | run => exact (leaves_of_evaluate h).2
  | showTree => exact (leaves_of_evaluate h).2
  | clear =>
    cases h
    exact .clear
  | copyLink => exact absurd rfl hbutton

/-- Edits and copied links leave the panes alone. -/
theorem exists_perform_of_isQuiet (fuel : Nat) (around : Surroundings) (page : Page)
    (h : action.IsQuiet) :
    ∃ page', page.perform fuel around action = .ok page' ∧ page'.panes = page.panes := by
  cases action with
  | edit e => exact ⟨_, rfl, rfl⟩
  | click button =>
    obtain rfl : button = .copyLink := h
    exact ⟨_, rfl, (copyLink_keeps around page).2⟩

/-- Only edits change the script. -/
theorem area_of_perform (h : page.perform fuel around action = .ok page') :
    page'.area = page.area.editAll (editsOf [action]) := by
  cases action with
  | edit e =>
    cases h
    rfl
  | click button => exact area_of_click h

/-- What an action does stays as it is with more fuel. -/
theorem perform_mono (hfuel : fuel ≤ fuel') (h : page.perform fuel around action = .ok page') :
    page.perform fuel' around action = .ok page' := by
  cases action with
  | edit e => exact h
  | click button =>
    cases button with
    | run => exact evaluate_mono hfuel h
    | showTree => exact evaluate_mono hfuel h
    | clear => exact h
    | copyLink => exact h

/-! ## Many actions -/

/-- The actions lead from one page to another: some fuel is enough for all their runs. -/
def Reaches (around : Surroundings) (page : Page) (actions : List Action) (reached : Page) : Prop :=
  ∃ fuel, page.performAll fuel around actions = .ok reached

/-- Actions are performed in two parts, one after the other. -/
theorem performAll_append (fuel : Nat) (around : Surroundings) (page : Page)
    (before after : List Action) :
    page.performAll fuel around (before ++ after)
      = page.performAll fuel around before >>= fun middle =>
        middle.performAll fuel around after :=
  List.foldlM_append

theorem performAll_singleton (fuel : Nat) (around : Surroundings) (page : Page)
    (action : Action) :
    page.performAll fuel around [action] = page.perform fuel around action :=
  bind_pure _

/-- A page on which all runs have ended is the same with more fuel. -/
theorem performAll_mono (hfuel : fuel ≤ fuel')
    (h : page.performAll fuel around actions = .ok reached) :
    page.performAll fuel' around actions = .ok reached := by
  induction actions using List.reverseRecOn generalizing reached with
  | nil => exact h
  | append_singleton before action ih =>
    rw [performAll_append, bind_eq_ok] at h ⊢
    obtain ⟨middle, hbefore, haction⟩ := h
    rw [performAll_singleton] at haction
    refine ⟨middle, ih hbefore, ?_⟩
    rw [performAll_singleton]
    exact perform_mono hfuel haction

/-- The last action is performed where the others have led. -/
theorem reaches_append_iff : page.Reaches around (before ++ [action]) reached
    ↔ ∃ middle, page.Reaches around before middle
      ∧ ∃ fuel, middle.perform fuel around action = .ok reached := by
  simp only [Reaches, performAll_append, bind_eq_ok, performAll_singleton]
  constructor
  · rintro ⟨fuel, middle, hbefore, haction⟩
    exact ⟨middle, ⟨fuel, hbefore⟩, fuel, haction⟩
  · rintro ⟨middle, ⟨fuel, hbefore⟩, fuel', haction⟩
    exact ⟨max fuel fuel', middle, performAll_mono (Nat.le_max_left _ _) hbefore,
      perform_mono (Nat.le_max_right _ _) haction⟩

/-- Only edits change the text area. -/
theorem area_of_reaches (h : page.Reaches around actions reached) :
    reached.area = page.area.editAll (editsOf actions) := by
  induction actions using List.reverseRecOn generalizing reached with
  | nil =>
    obtain ⟨fuel, h⟩ := h
    cases h
    rfl
  | append_singleton before action ih =>
    obtain ⟨middle, hbefore, fuel, haction⟩ := reaches_append_iff.mp h
    rw [area_of_perform haction, ih hbefore, editsOf_append, TextArea.editAll_append]

/-- What the last deciding click among the actions has left in the panes. -/
inductive LastLeft (opened : Page) : List Action → Panes → Prop
  | none {actions : List Action} : (∀ action ∈ actions, action.IsQuiet) →
      LastLeft opened actions .empty
  | click {before after : List Action} {button : Button} {panes : Panes} :
      Leaves (opened.scriptAfter before) button panes → (∀ action ∈ after, action.IsQuiet) →
      LastLeft opened (before ++ .click button :: after) panes

/-- A quiet action leaves the panes as they were left before. -/
theorem LastLeft.append {panes : Panes} (h : LastLeft opened actions panes)
    (haction : action.IsQuiet) : LastLeft opened (actions ++ [action]) panes := by
  have hquiet : ∀ {others : List Action}, (∀ a ∈ others, a.IsQuiet) →
      ∀ a ∈ others ++ [action], a.IsQuiet := by
    intro others hothers
    exact List.forall_mem_append.mpr ⟨hothers, List.forall_mem_singleton.mpr haction⟩
  cases h with
  | none hactions => exact .none (hquiet hactions)
  | click hleaves hafter =>
    rw [List.append_assoc]
    exact .click hleaves (hquiet hafter)

/-- The panes hold what the last action that was not quiet left in them. -/
theorem lastLeft_of_reaches (hopened : opened.panes = .empty)
    (h : opened.Reaches around actions reached) : LastLeft opened actions reached.panes := by
  induction actions using List.reverseRecOn generalizing reached with
  | nil =>
    obtain ⟨fuel, h⟩ := h
    cases h
    rw [hopened]
    exact .none (fun _ hmem => absurd hmem List.not_mem_nil)
  | append_singleton before action ih =>
    obtain ⟨middle, hbefore, fuel, haction⟩ := reaches_append_iff.mp h
    -- a quiet action leaves what was left before it, and any other leaves its own
    by_cases hquiet : action.IsQuiet
    · obtain ⟨_, hperform, hpanes⟩ := exists_perform_of_isQuiet fuel around middle hquiet
      cases hperform.symm.trans haction
      rw [hpanes]
      exact (ih hbefore).append hquiet
    · cases action with
      | edit e => exact absurd trivial hquiet
      | click button =>
        have hleaves := leaves_of_click haction hquiet
        rw [area_of_reaches hbefore] at hleaves
        exact .click hleaves (fun _ hmem => absurd hmem List.not_mem_nil)

/-! ## Actions that come to an end -/

/-- Every run that the actions start ends. -/
def RunsEnd (opened : Page) (actions : List Action) : Prop :=
  ∀ before button after, actions = before ++ .click button :: after → button.Runs →
    ∃ outcome, EndsIn (opened.scriptAfter before) outcome

/-- If all runs come to their end, those of the first actions do. -/
theorem RunsEnd.of_append (h : opened.RunsEnd (before ++ after)) : opened.RunsEnd before := by
  intro before' button after' hbefore hruns
  refine h before' button (after' ++ after) ?_ hruns
  rw [hbefore, List.append_assoc, List.cons_append]

/-- An action can be performed if the script that it runs comes to its end. -/
theorem exists_perform
    (h : ∀ button, action = .click button → button.Runs →
      ∃ outcome, EndsIn page.area.value outcome) :
    ∃ page' fuel, page.perform fuel around action = .ok page' := by
  cases action with
  | edit e => exact ⟨_, 0, rfl⟩
  | click button =>
    cases button with
    | run =>
      obtain ⟨outcome, hends⟩ := h .run rfl (.inl rfl)
      exact exists_evaluate hends false
    | showTree =>
      obtain ⟨outcome, hends⟩ := h .showTree rfl (.inr rfl)
      exact exists_evaluate hends true
    | clear => exact ⟨_, 0, rfl⟩
    | copyLink => exact ⟨_, 0, rfl⟩

/-- Actions can be performed if the scripts that they run come to their end. -/
theorem exists_reaches (around : Surroundings) (h : opened.RunsEnd actions) :
    ∃ reached, opened.Reaches around actions reached := by
  induction actions using List.reverseRecOn with
  | nil => exact ⟨opened, 0, rfl⟩
  | append_singleton before action ih =>
    obtain ⟨middle, hbefore⟩ := ih h.of_append
    have hends : ∀ button, action = .click button → button.Runs →
        ∃ outcome, EndsIn middle.area.value outcome := by
      rintro button rfl hruns
      rw [area_of_reaches hbefore]
      exact h before button [] rfl hruns
    obtain ⟨reached, fuel, haction⟩ := exists_perform hends
    exact ⟨reached, reaches_append_iff.mpr ⟨middle, hbefore, fuel, haction⟩⟩

/-- Where actions have been performed, the scripts that they ran have come to their end. -/
theorem runsEnd_of_reaches (h : opened.Reaches around actions reached) :
    opened.RunsEnd actions := by
  rintro before button after rfl hruns
  obtain ⟨fuel, h⟩ := h
  rw [List.append_cons, performAll_append, bind_eq_ok] at h
  obtain ⟨clicked, hclicked, -⟩ := h
  obtain ⟨middle, hbefore, fuel', hclick⟩ := reaches_append_iff.mp ⟨fuel, hclicked⟩
  have hbutton : button ≠ .copyLink := by
    rintro rfl
    rcases hruns with h | h <;> cases h
  have hleaves := leaves_of_click hclick hbutton
  rw [area_of_reaches hbefore] at hleaves
  exact hleaves.exists_endsIn hruns

/-- The panes of a page that has just been loaded are empty. -/
theorem panes_of_load {missing : List Text} {search : Text}
    (h : load missing search = .ok opened) : opened.panes = .empty := by
  unfold load at h
  split at h
  · cases h
  · split at h
    · cases h
    · cases h
      rfl

/-- Actions on a page that has been loaded come to an end exactly if all the runs that they start
do. The panes then hold what the last click that decides about them has left, for which the button
and the script of that moment count and nothing else. Edits and copied links never change the panes,
and no click changes the script. -/
theorem panes_of_actions {missing : List Text} {search : Text}
    (hload : load missing search = .ok opened) (around : Surroundings) (actions : List Action) :
    ((∃ reached, opened.Reaches around actions reached) ↔ opened.RunsEnd actions)
    ∧ (∀ reached, opened.Reaches around actions reached →
        LastLeft opened actions reached.panes
          ∧ reached.area.value = opened.scriptAfter actions)
    ∧ (∀ script button panes panes', Leaves script button panes → Leaves script button panes' →
        panes = panes')
    ∧ (∀ fuel (page : Page) (action : Action), action.IsQuiet →
        ∃ page', page.perform fuel around action = .ok page' ∧ page'.panes = page.panes)
    ∧ ∀ fuel (page page' : Page) button, page.click fuel around button = .ok page' →
        page'.area = page.area := by
  refine ⟨⟨?_, exists_reaches around⟩, ?_, ?_, ?_, ?_⟩
  · rintro ⟨reached, h⟩
    exact runsEnd_of_reaches h
  · intro reached h
    refine ⟨lastLeft_of_reaches (panes_of_load hload) h, ?_⟩
    rw [area_of_reaches h, scriptAfter]
  · intro script button panes panes' h h'
    exact h.unique h'
  · intro fuel page action h
    exact exists_perform_of_isQuiet fuel around page h
  · intro fuel page page' button h
    exact area_of_click h

/-- A script whose tree is shown, and which is then replaced by another whose link is copied. -/
def replacedAfterRun : List Action :=
  [.edit (.set "print(\"a\")"), .click .showTree, .edit (.set "b"), .click .copyLink]

/-- A run, an edit and a copied link: the panes stay as the run left them. -/
theorem panes_of_actions_replacedAfterRun : ∃ reached,
    load [] [] = .ok (holding sampleScript)
      ∧ (holding sampleScript).Reaches exampleSite replacedAfterRun reached
      ∧ (holding sampleScript).RunsEnd replacedAfterRun
      ∧ LastLeft (holding sampleScript) replacedAfterRun reached.panes
      ∧ reached.panes = ⟨"Block:\n  Print:\n    String(a)", "a\n"⟩
      ∧ reached.area.value = "b" := by
  have hload : load [] [] = .ok (holding sampleScript) := rfl
  obtain ⟨whole, printed, text, hparse⟩ : ∃ whole printed text,
      Script.parse "print(\"a\")" = .ok ⟨whole, [.print printed (.string text "a")]⟩ :=
    ⟨_, _, _, rfl⟩
  have hrun : runSource 0 "print(\"a\")"
      = .ok ⟨"Block:\n  Print:\n    String(a)", "a\n", true⟩ := by
    rw [runSource, hparse]
    rfl
  obtain ⟨reached, hreached, hpanes⟩ : ∃ reached,
      (holding sampleScript).performAll 0 exampleSite replacedAfterRun = .ok reached
        ∧ reached.panes = ⟨"Block:\n  Print:\n    String(a)", "a\n"⟩ := by
    show ∃ reached, (evaluate 0 true ⟨⟨"print(\"a\")", 10, 10⟩, [], [], [], [], []⟩
      >>= fun shown => shown.performAll 0 exampleSite [.edit (.set "b"), .click .copyLink])
        = .ok reached ∧ _
    rw [evaluate, hrun]
    exact ⟨_, rfl, rfl⟩
  obtain ⟨hends, hlast, -⟩ := panes_of_actions hload exampleSite replacedAfterRun
  obtain ⟨hleft, hscript⟩ := hlast reached ⟨0, hreached⟩
  exact ⟨reached, hload, ⟨0, hreached⟩, hends.mp ⟨reached, 0, hreached⟩, hleft, hpanes, hscript⟩

end Page

end Plume.Editor
