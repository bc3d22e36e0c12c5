import Plume.Editor.TextArea

/-!
# Keys touch only the selection

A text area is the text before its selection, the text that is selected and the text behind it
(`TextArea.around`). Enter and Tab put a text in place of the selected one, Backspace takes four
spaces from the end of the text before the cursor or is left alone, and no other key does anything.
What an edit leaves behind has its selection inside of its text again, so all this holds after any
number of edits (`TextArea.keys_of_edits`).
-/

namespace Plume.Editor

/-- A number of spaces. -/
def spaces (n : Nat) : Text := List.replicate n 0x20

theorem indentUnit_eq : indentUnit = spaces 4 := rfl

/-- The text that Enter writes: a line feed and the indentation of the new line. -/
def newLine (text : Text) (cursor : Nat) : Text :=
  CodeUnit.lineFeed :: nextLineIndentation text cursor

variable {before selected after : Text}

/-- A level of indentation starts where four spaces do that end at the cursor. -/
theorem dedentStart?_eq_some_iff {stop first : Nat} :
    dedentStart? (before ++ after) before.length stop = some first
      ↔ before.length = stop ∧ ∃ kept, before = kept ++ spaces 4 ∧ first = kept.length := by
  have hfour : (spaces 4).length = 4 := rfl
  simp only [dedentStart?, indentUnit_eq, hfour, List.take_left]
  constructor
  -- the four units before the cursor are compared with the four spaces
  · intro hsome
    split at hsome
    · cases hsome
    · rename_i hcursor
      split at hsome
      · rename_i hspaces
        obtain rfl := Option.some.inj hsome
        refine ⟨by omega, before.take (before.length - 4), ?_, ?_⟩
        · rw [← beq_iff_eq.mp hspaces, List.take_append_drop]
        · rw [List.length_take_of_le (Nat.sub_le _ _)]
      · cases hsome
  -- and if they are there, they are found
  · rintro ⟨rfl, kept, rfl, rfl⟩
    have hkept : (kept ++ spaces 4).length - 4 = kept.length := by
      rw [List.length_append, hfour, Nat.add_sub_cancel]
    rw [if_neg (by rw [List.length_append, hfour]; omega), hkept, List.drop_left,
      if_pos (beq_self_eq_true _)]

namespace TextArea

/-! ## The three parts of a text area -/

/-- The selection lies in the text. -/
structure IsSound (area : TextArea) : Prop where
  ordered : area.start ≤ area.stop
  within : area.stop ≤ area.value.length

/-- A text area by its parts: the text before the selection, the selected text and the text behind
it. -/
def around (before selected after : Text) : TextArea :=
  ⟨before ++ selected ++ after, before.length, before.length + selected.length⟩

variable {area : TextArea}

/-- A text area given by its three parts is sound. -/
theorem isSound_around : (around before selected after).IsSound where
  ordered := Nat.le_add_right _ _
  within := by
    rw [around, List.length_append, List.length_append]
    exact Nat.le_add_right _ _

/-- Every sound text area is given by its three parts. -/
theorem exists_eq_around (h : area.IsSound) : ∃ before selected after,
    area = around before selected after := by
  obtain ⟨value, start, stop⟩ := area
  obtain ⟨hordered, hwithin⟩ := h
  simp only at hordered hwithin
  have hbefore : (value.take start).length = start := List.length_take_of_le (by omega)
  have hselected : ((value.drop start).take (stop - start)).length = stop - start :=
    List.length_take_of_le (by rw [List.length_drop]; omega)
  have hafter : (value.drop start).drop (stop - start) = value.drop stop := by
    rw [List.drop_drop, Nat.add_sub_cancel' hordered]
  refine ⟨value.take start, (value.drop start).take (stop - start), value.drop stop, ?_⟩
  rw [around, List.append_assoc, ← hafter, List.take_append_drop, List.take_append_drop, hbefore,
    hselected, Nat.add_sub_cancel' hordered]

theorem take_around : (before ++ selected ++ after).take before.length = before := by
  rw [List.append_assoc]
  exact List.take_left

theorem drop_around :
    (before ++ selected ++ after).drop (before.length + selected.length) = after := by
  rw [← List.length_append]
  exact List.drop_left

/-! ## Keys -/

/-- A text that is inserted takes the place of the selection. -/
theorem insert_around (text : Text) :
    (around before selected after).insert text = around (before ++ text) [] after := by
  simp only [insert, around, take_around, drop_around, List.append_nil, List.length_append,
    List.length_nil, Nat.add_zero]

/-- Backspace behind four spaces takes them away. -/
theorem backspace_spaces (kept after : Text) :
    (around (kept ++ spaces 4) [] after).press .backspace = ⟨true, [], around kept [] after⟩ := by
  have hdedent : dedentStart? (kept ++ spaces 4 ++ after) (kept ++ spaces 4).length
      (kept ++ spaces 4).length = some kept.length :=
    dedentStart?_eq_some_iff.mpr ⟨rfl, kept, rfl, rfl⟩
  simp only [press, around, List.append_nil, List.length_nil, Nat.add_zero, hdedent, List.drop_left]
  rw [List.append_assoc, List.take_left]

/-- Backspace is left alone elsewhere. -/
theorem backspace_elsewhere (h : ¬ (selected = [] ∧ spaces 4 <:+ before)) :
    (around before selected after).press .backspace
      = ⟨false, [], around before selected after⟩ := by
  have hdedent : dedentStart? (before ++ selected ++ after) before.length
      (before.length + selected.length) = none := by
    rw [Option.eq_none_iff_forall_ne_some]
    intro first hfirst
    rw [List.append_assoc, dedentStart?_eq_some_iff] at hfirst
    obtain ⟨hlength, kept, hkept, -⟩ := hfirst
    exact h ⟨List.length_eq_zero_iff.mp (by omega), kept, hkept.symm⟩
  simp only [press, around, hdedent]

/-- The effect of a key that writes `text` between `before` and `after` and puts the cursor behind
it. -/
def writing (text before after : Text) : EditEffect :=
  ⟨true, [text], around (before ++ text) [] after⟩

/-- Tab writes four spaces. -/
theorem tab_around :
    (around before selected after).press .tab = writing (spaces 4) before after := by
  rw [press, insert_around, indentUnit_eq, writing]

/-- Enter writes a line feed and the indentation of the new line. -/
theorem enter_around :
    (around before selected after).press .enter
      = writing (newLine (before ++ selected ++ after) before.length) before after := by
  rw [press, insert_around]
  rfl

/-! ## Edits -/

/-- The text area after edits one behind the other. -/
def editAll (area : TextArea) : List Edit → TextArea :=
  List.foldl (fun area e => (area.edit e).area) area

/-- What is selected has to lie in the text. All else can be done in any text area. -/
def Permits (area : TextArea) : Edit → Prop
  | .select start stop => start ≤ stop ∧ stop ≤ area.value.length
  | _ => True

/-- The edits can be made one behind the other. -/
def PermitsAll (area : TextArea) : List Edit → Prop
  | [] => True
  | e :: rest => area.Permits e ∧ (area.edit e).area.PermitsAll rest

/-- A key leaves the selection inside of the text. -/
theorem IsSound.press (h : area.IsSound) (key : Key) : (area.press key).area.IsSound := by
  obtain ⟨before, selected, after, rfl⟩ := exists_eq_around h
  cases key with
  | enter =>
    rw [enter_around]
    exact isSound_around
  | tab =>
    rw [tab_around]
    exact isSound_around
  | backspace =>
    by_cases hspaces : selected = [] ∧ spaces 4 <:+ before
    · obtain ⟨rfl, kept, rfl⟩ := hspaces
      rw [backspace_spaces]
      exact isSound_around
    · rw [backspace_elsewhere hspaces]
      exact isSound_around
  | other => exact isSound_around

/-- Every edit that is permitted keeps a text area sound. -/
theorem IsSound.edit (h : area.IsSound) {e : Edit} (he : area.Permits e) :
    (area.edit e).area.IsSound := by
  cases e with
  | set value => exact ⟨Nat.le_refl _, Nat.le_refl _⟩
  | select start stop => exact ⟨he.1, he.2⟩
  | press key => exact h.press key

/-- The selection is inside of the text after each of the edits. -/
theorem IsSound.editAll {edits done : List Edit} (h : area.IsSound) (hedits : area.PermitsAll edits)
    (hdone : done <+: edits) : (area.editAll done).IsSound := by
  induction done generalizing area edits with
  | nil => exact h
  | cons e done ih =>
    obtain ⟨rest, rfl⟩ := hdone
    exact ih (h.edit hedits.1) hedits.2 (List.prefix_append done rest)

/-! ## What keys do -/

/-- The keys touch only the selection of a text area, which lies between `before` and `after`. -/
structure TouchesSelection (area : TextArea) (before selected after : Text) : Prop where
  parts : area = around before selected after
  enter : area.press (.ofName "Enter") = writing (newLine area.value area.start) before after
  tab : area.press (.ofName "Tab") = writing (spaces 4) before after
  backspace :
    (selected = [] ∧ ∃ kept, before = kept ++ spaces 4
      ∧ area.press (.ofName "Backspace") = ⟨true, [], around kept [] after⟩)
    ∨ (¬ (selected = [] ∧ spaces 4 <:+ before)
      ∧ area.press (.ofName "Backspace") = ⟨false, [], area⟩)
  other : ∀ name : Text, name ≠ "Enter" → name ≠ "Tab" → name ≠ "Backspace" →
    area.press (.ofName name) = ⟨false, [], area⟩
  /-- Tab and Backspace after it delete what is selected. -/
  deletes : ((area.press (.ofName "Tab")).area.press (.ofName "Backspace")).area
    = around before [] after
  /-- They undo each other where nothing is selected. -/
  restores : selected = [] →
    ((area.press (.ofName "Tab")).area.press (.ofName "Backspace")).area = area

theorem ofName_of_ne {name : Text} (henter : name ≠ "Enter") (htab : name ≠ "Tab")
    (hbackspace : name ≠ "Backspace") : Key.ofName name = .other := by
  rw [Key.ofName, if_neg (by simpa using henter), if_neg (by simpa using htab),
    if_neg (by simpa using hbackspace)]

/-- The keys change nothing but the selection and what stands right before it. -/
theorem touchesSelection_around :
    (around before selected after).TouchesSelection before selected after := by
  have hdeletes : (((around before selected after).press (.ofName "Tab")).area.press
      (.ofName "Backspace")).area = around before [] after := by
    change (((around before selected after).press .tab).area.press .backspace).area = _
    rw [tab_around, writing, backspace_spaces]
  refine ⟨rfl, enter_around, tab_around, ?_, ?_, hdeletes, ?_⟩
  · by_cases hspaces : selected = [] ∧ spaces 4 <:+ before
    · obtain ⟨rfl, kept, rfl⟩ := hspaces
      exact .inl ⟨rfl, kept, rfl, backspace_spaces kept after⟩
    · exact .inr ⟨hspaces, backspace_elsewhere hspaces⟩
  · intro name henter htab hbackspace
    rw [ofName_of_ne henter htab hbackspace]
    rfl
  · rintro rfl
    exact hdeletes

/-- After each of any number of edits the selection is inside of the text, and the keys touch only
the selection. -/
theorem keys_of_edits {first : TextArea} {edits done : List Edit} (hfirst : first.IsSound)
    (hedits : first.PermitsAll edits) (hdone : done <+: edits) :
    (first.editAll done).IsSound
      ∧ ∃ before selected after, (first.editAll done).TouchesSelection before selected after := by
  have hsound := hfirst.editAll hedits hdone
  obtain ⟨before, selected, after, hparts⟩ := exists_eq_around hsound
  exact ⟨hsound, before, selected, after, hparts ▸ touchesSelection_around⟩

/-- A condition with a new line behind it, of which a part is selected, and a Tab in its place. -/
def indentedCondition : List Edit :=
  [.set "  if x:", .press .enter, .select 3 7, .press .tab]

theorem keys_of_edits_indentedCondition :
    empty.IsSound ∧ empty.PermitsAll indentedCondition
      ∧ empty.editAll indentedCondition = around "  i    " [] (CodeUnit.lineFeed :: spaces 6)
      ∧ (empty.editAll indentedCondition).IsSound
      ∧ ∃ before selected after,
        (empty.editAll indentedCondition).TouchesSelection before selected after := by
  have hempty : empty.IsSound := ⟨Nat.le_refl 0, Nat.le_refl 0⟩
  have hedits : empty.PermitsAll indentedCondition :=
    ⟨trivial, trivial, ⟨by decide, by decide⟩, trivial, trivial⟩
  exact ⟨hempty, hedits, by decide, keys_of_edits hempty hedits (List.prefix_refl _)⟩

end TextArea

end Plume.Editor
