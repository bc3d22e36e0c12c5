import Plume.Text.Basic

/-!
# The text area

Three keys edit code: Enter keeps the indentation of the line that it splits and goes one level
deeper after a colon, Tab inserts one level, and Backspace takes a whole level away.
-/

namespace Plume.Editor

/-- One level of indentation. -/
def indentUnit : Text := "    "

/-- The part of the cursor's line that stands before the cursor. -/
def lineBefore (text : Text) (cursor : Nat) : Text :=
  ((text.take cursor).reverse.takeWhile (· != CodeUnit.lineFeed)).reverse

/-- The indentation of the line that starts where the cursor splits one: that of the line split, and
one level more if a colon ends what stands before the cursor. -/
def nextLineIndentation (text : Text) (cursor : Nat) : Text :=
  let line := lineBefore text cursor
  let indentation := line.takeWhile CodeUnit.isSpaceOrTab
  if (Text.ofString ":").isSuffixOf line.trimEnd then indentation ++ indentUnit else indentation

/-- Where the level of indentation directly before the cursor starts, if there is one and nothing is
selected. -/
def dedentStart? (text : Text) (start stop : Nat) : Option Nat :=
  if start ≠ stop ∨ start < indentUnit.length then none
  else
    let first := start - indentUnit.length
    if (text.take start).drop first == indentUnit then some first else none

/-- A text and the part of it that is selected. The cursor is a selection of nothing. -/
structure TextArea where
  value : Text
  start : Nat
  stop : Nat
  deriving DecidableEq

/-- The keys that a text area is told of. -/
inductive Key where
  | enter
  | tab
  | backspace
  | other
  deriving DecidableEq

/-- The key of a name. -/
def Key.ofName (name : Text) : Key :=
  if name == Text.ofString "Enter" then .enter
  else if name == Text.ofString "Tab" then .tab
  else if name == Text.ofString "Backspace" then .backspace
  else .other

/-- What is done to a text area. -/
inductive Edit where
  /-- Puts another text into it, and the cursor behind the text. -/
  | set (value : Text)
  /-- Selects a part of its text. -/
  | select (start stop : Nat)
  /-- Presses a key in it. -/
  | press (key : Key)
  deriving DecidableEq

/-- What an edit does: whether a key is taken over from the browser, the texts that are reported as
input, and the text area after it. -/
structure EditEffect where
  prevented : Bool
  input : List Text
  area : TextArea
  deriving DecidableEq

namespace TextArea

/-- The empty text area. -/
def empty : TextArea := ⟨[], 0, 0⟩

/-- Puts a text in place of the selection and the cursor behind it. -/
def insert (area : TextArea) (text : Text) : TextArea :=
  let cursor := area.start + text.length
  ⟨area.value.take area.start ++ text ++ area.value.drop area.stop, cursor, cursor⟩

/-- Presses a key. -/
def press (area : TextArea) : Key → EditEffect
  | .enter =>
    let text := CodeUnit.lineFeed :: nextLineIndentation area.value area.start
    ⟨true, [text], area.insert text⟩
  | .tab => ⟨true, [indentUnit], area.insert indentUnit⟩
  | .backspace =>
    match dedentStart? area.value area.start area.stop with
    | some first =>
      ⟨true, [], ⟨area.value.take first ++ area.value.drop area.stop, first, first⟩⟩
    | none => ⟨false, [], area⟩
  | .other => ⟨false, [], area⟩

/-- Edits a text area. -/
def edit (area : TextArea) : Edit → EditEffect
  | .set value => ⟨false, [], ⟨value, value.length, value.length⟩⟩
  | .select start stop => ⟨false, [], ⟨area.value, start, stop⟩⟩
  | .press key => area.press key

end TextArea

end Plume.Editor
