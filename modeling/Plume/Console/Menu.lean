import Plume.Console.Report

/-!
# The menu

The menu offers categories of scripts. Each round it asks for a choice and then for a source. A
source that lacks what its category calls for gets a hint; any other gets a report.
-/

namespace Plume.Console

/-- What a category calls for in a source, and the hint for a source that lacks it. -/
inductive Requirement where
  | nothing
  | anyOf (parts : List Text) (hint : Text)
  | allOf (parts : List Text) (hint : Text)

/-- The hint for a source, if it lacks what is called for. -/
def Requirement.hint? (source : Text) : Requirement → Option Text
  | .nothing => none
  | .anyOf parts hint => if parts.any source.contains then none else some hint
  | .allOf parts hint => if parts.all source.contains then none else some hint

/-- A category of scripts. -/
structure Category where
  label : Text
  prompt : Text
  requirement : Requirement

namespace Menu

/-- The categories by the choice that stands for them. -/
def categories : List (Text × Category) :=
  [("1", ⟨"Arithmetic Expression (e.g., 3 + 5 * 2)", "Enter arithmetic expression: ",
      .anyOf ["+", "-", "*", "/"]
        "Invalid arithmetic expression. Must contain operators (+,-,*,/)"⟩),
    ("2", ⟨"List Declaration (e.g., myList = [1, 2, 3])", "Enter list declaration: ",
      .allOf ["=", "[", "]"] "Invalid list declaration. Format: name = [items]"⟩),
    ("3", ⟨"For Loop (e.g., for i in range(1, 5): print(i))", "Enter for loop: ",
      .allOf ["for", "in", "range", ":", "("]
        "Invalid for loop. Format: for var in range(start, end): statement"⟩),
    ("4", ⟨"While Loop (e.g., x = 3; while x > 0: print(x); x = x - 1)", "Enter while loop: ",
      .allOf ["while", ":"] "Invalid while loop. Format: while condition: statement"⟩),
    ("5", ⟨"If Statement (e.g., x = 7; if x == 5: print(\"five\") else: print(\"other\"))",
      "Enter if statement: ",
      .allOf ["if", ":"]
        "Invalid if statement. Format: if condition: statement [else: statement]"⟩),
    ("6", ⟨"Simple Assignment (e.g., x = 42)", "Enter simple assignment: ",
      .allOf ["="] "Invalid assignment. Format: variable = value"⟩),
    ("7", ⟨"General Statement (anything built from the constructs above)",
      "Enter any statement: ", .nothing⟩)]

/-- The choice that leaves the menu. -/
def exitChoice : Text := "8"

/-- The menu as it is shown each round. -/
def text : Text :=
  let entry (choice label : Text) : Text := choice ++ ". " ++ label
  Text.endLine <| Text.joinLines <|
    "Plume Parser - Select an option:"
      :: (categories.map (fun (choice, c) => entry choice c.label) ++ [entry exitChoice "Exit"])

/-- What the menu asks first in a round. -/
def choiceQuestion : Text := "Enter choice: "

/-- What the menu writes last. -/
def farewell : Text := "Exiting.\n"

/-- What the menu writes after a choice that it does not offer. -/
def invalidChoice : Text := "Invalid choice. Please try again.\n\n"

/-- What a choice means. -/
inductive Choice where
  | leave
  | category (c : Category)
  | invalid

/-- The meaning of an answer. White space around it does not count. -/
def choose (answer : Text) : Choice :=
  let choice := answer.trim
  if choice == exitChoice then .leave
  else
    match categories.lookup choice with
    | some c => .category c
    | none => .invalid

/-- What the menu writes about a source in a category. -/
def respond (fuel : Nat) (c : Category) (source : Text) : Except Abort Text :=
  match c.requirement.hint? source with
  | some hint => .ok ("Syntax Error: " ++ hint ++ "\n\n")
  | none => Text.endLine <$> report fuel source

/-- What the menu does to the outside: it asks a question or writes a text. -/
inductive Event where
  | ask (question : Text)
  | write (text : Text)
  deriving DecidableEq

/-- The text that an event leaves on the console. -/
def Event.shown : Event → Text
  | .ask question => question
  | .write text => text

/-- Which question of a round is open. -/
inductive Stage where
  /-- The one for a choice. -/
  | choice
  /-- The one for a source of a category. -/
  | source (c : Category)

/-- What the menu does about an answer: its events, and the question that follows unless the menu is
left. -/
structure Reply where
  events : List Event
  next : Option Stage

namespace Stage

/-- What the menu does before it waits for an answer. -/
def opening : Stage → List Event
  | .choice => [.write text, .ask choiceQuestion]
  | .source c => [.ask c.prompt]

/-- Takes the answer to a question. There is none once the input is closed. -/
def reply (fuel : Nat) : Stage → Option Text → Except Abort Reply
  | _, none => .ok ⟨[.write farewell], none⟩
  | .choice, some answer =>
    match choose answer with
    | .leave => .ok ⟨[.write farewell], none⟩
    | .invalid => .ok ⟨[.write invalidChoice], some .choice⟩
    | .category c => .ok ⟨[], some (.source c)⟩
  | .source c, some answer => do
    let response ← respond fuel c answer
    return ⟨[.write response], some .choice⟩

end Stage

/-- The events from a stage on, where each question gets the next of the answers, and none once they
have run out. -/
def sessionFrom (fuel : Nat) (stage : Stage) : List Text → Except Abort (List Event)
  | [] => do
    let reply ← stage.reply fuel none
    return stage.opening ++ reply.events
  | answer :: rest => do
    let reply ← stage.reply fuel (some answer)
    match reply.next with
    | none => return stage.opening ++ reply.events
    | some next =>
      let events ← sessionFrom fuel next rest
      return stage.opening ++ reply.events ++ events

/-- The events of a run of the menu that gets the given answers. -/
def session (fuel : Nat) (answers : List Text) : Except Abort (List Event) :=
  sessionFrom fuel .choice answers

end Menu

end Plume.Console
