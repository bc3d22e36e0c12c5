import Plume.Editor.Link
import Plume.Editor.TextArea
import Plume.Script
import Plume.Tree.Outline

/-!
# The editor page

The page has an input area, a pane for trees and a pane for output. It starts with the script of its
link, or else with a sample. Buttons run the script, clear the panes, and copy a link to the script.
-/

namespace Plume.Editor

/-! ## Scripts in the editor -/

/-- What the editor shows of a script: the outline of its tree, its output with the diagnostic
behind it, and whether there was none. -/
structure Shown where
  tree : Text
  output : Text
  succeeded : Bool
  deriving DecidableEq

/-- Runs a source for the editor. -/
def runSource (fuel : Nat) (source : Text) : Except Abort Shown :=
  match Script.parse source with
  | .error d => .ok ⟨[], d.text, false⟩
  | .ok program => do
    let result ← program.run fuel .standard .empty
    let problem : Text := result.error.elim [] Diagnostic.text
    return ⟨program.toTree.text, result.output ++ problem, result.error.isNone⟩

/-! ## The page -/

/-- The elements that a page must have, in the order in which they are looked for. -/
def elements : List Text :=
  ["inputTextArea", "runButton", "astButton", "clearButton", "copyLinkButton", "astTextArea",
    "outputTextArea"]

/-- Why a page does not load. -/
inductive LoadError where
  | missingElement (id : Text)
  | invalidLink
  deriving DecidableEq

/-- The message of an element that is missing. -/
def missingElementText (id : Text) : Text := "Missing element #" ++ id

/-- The script of a page whose link has none. -/
def sampleScript : Text :=
  Text.joinLines
    ["total = 0;",
      "for i in range(1, 5):",
      "    total = total + i;",
      "    print(\"running total: \" + str(total))"]

/-- The buttons of a page. -/
inductive Button where
  | run
  | showTree
  | clear
  | copyLink
  deriving DecidableEq

/-- The button of an element. -/
def Button.ofId? (id : Text) : Option Button :=
  [(Text.ofString "runButton", Button.run), (Text.ofString "astButton", .showTree),
    (Text.ofString "clearButton", .clear), (Text.ofString "copyLinkButton", .copyLink)].lookup id

/-- What is done on a page. -/
inductive Action where
  /-- An edit of the input area. -/
  | edit (e : Edit)
  /-- A click of a button. -/
  | click (button : Button)
  deriving DecidableEq

/-- What a page stands in: its address without the query, and why the clipboard refuses texts, if it
does. -/
structure Surroundings where
  address : Text
  refusal : Option Text

/-- A page: the input area, the two panes, what it has logged and copied, and the faults in which
its runs have ended. -/
structure Page where
  area : TextArea
  treePane : Text
  outputPane : Text
  log : List Text
  copied : List Text
  faults : List Fault
  deriving DecidableEq

namespace Page

/-- Loads a page on which the given elements are missing, with the given query. -/
def load (missing : List Text) (search : Text) : Except LoadError Page :=
  match elements.find? missing.contains with
  | some id => .error (.missingElement id)
  | none =>
    match Link.ofQuery search with
    | .error _ => .error .invalidLink
    | .ok script => .ok ⟨⟨script.getD sampleScript, 0, 0⟩, [], [], [], [], []⟩

/-- The page with nothing in its panes. -/
def clear (page : Page) : Page := { page with treePane := [], outputPane := [] }

/-- The page with one more line in its log. -/
def logLine (page : Page) (line : Text) : Page := { page with log := page.log ++ [line] }

/-- Clears the panes, runs the script and shows its output, and its tree if `showTree` says so. A
run that ends in a fault leaves the panes empty and logs nothing. -/
def evaluate (fuel : Nat) (showTree : Bool) (page : Page) : Except Abort Page :=
  let cleared := page.clear
  match runSource fuel page.area.value with
  | .ok shown =>
    let verdict : Text :=
      if shown.succeeded then "Evaluation completed successfully in 0ms!"
      else "Evaluation failed after 0ms."
    let tree := if showTree then shown.tree else []
    .ok ({ cleared with treePane := tree, outputPane := shown.output }.logLine verdict)
  | .error (.fault f) => .ok { cleared with faults := page.faults ++ [f] }
  | .error .outOfFuel => .error .outOfFuel

/-- The link to a script. -/
def link (around : Surroundings) (script : Text) : Text :=
  around.address ++ "?" ++ Link.encode script

/-- Copies the link to the script, or logs why it cannot be copied. -/
def copyLink (around : Surroundings) (page : Page) : Page :=
  match around.refusal with
  | some reason => page.logLine ("Failed to copy link: " ++ reason)
  | none => { page with copied := page.copied ++ [link around page.area.value] }

/-- The page with nothing logged, nothing copied and no fault. -/
def forget (page : Page) : Page := { page with log := [], copied := [], faults := [] }

/-- Clicks a button. -/
def click (fuel : Nat) (around : Surroundings) (page : Page) : Button → Except Abort Page
  | .run => page.evaluate fuel false
  | .showTree => page.evaluate fuel true
  | .clear => .ok page.clear
  | .copyLink => .ok (page.copyLink around)

/-- Does one thing on a page. -/
def perform (fuel : Nat) (around : Surroundings) (page : Page) : Action → Except Abort Page
  | .edit e => .ok { page with area := (page.area.edit e).area }
  | .click button => page.click fuel around button

/-- Does one thing after another on a page. -/
def performAll (fuel : Nat) (around : Surroundings) (page : Page) :
    List Action → Except Abort Page :=
  List.foldlM (perform fuel around) page

end Page

end Plume.Editor
