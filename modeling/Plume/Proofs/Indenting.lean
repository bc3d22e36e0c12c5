import Mathlib.Data.List.DropRight
import Plume.Proofs.Editing

/-!
# The indentation of new lines

A new line is indented like the line that it is split from, and by four spaces more if what stands
before the cursor ends in a colon. Only the part of the text between the last line feed before the
cursor and the cursor counts (`IsLineBefore`). The new line has nothing but its indentation before
the cursor, so Enter pressed again keeps the indentation, and Backspace right after a colon and
Enter takes the four spaces back (`TextArea.indentation_of_enter`).

What stood behind the cursor comes behind the indentation. Spaces and tabs there are part of the
indentation of the new line, which Backspace then leaves deeper than the line above it
(`TextArea.backspace_spacedBody`).
-/

namespace Plume.Editor

/-! ## What the indentation is -/

/-- The line is the part of the text between the last line feed before the cursor, or the start of
the text, and the cursor. -/
structure IsLineBefore (text : Text) (cursor : Nat) (line : Text) : Prop where
  ends : ∃ front, text.take cursor = front ++ line
    ∧ (front = [] ∨ front.getLast? = some CodeUnit.lineFeed)
  onOneLine : CodeUnit.lineFeed ∉ line

/-- The line is the part of the text from the given place up to the next line feed, or to the end of
the text. -/
structure IsLineFrom (text : Text) (start : Nat) (line : Text) : Prop where
  begins : ∃ rest, text.drop start = line ++ rest
    ∧ (rest = [] ∨ rest.head? = some CodeUnit.lineFeed)
  onOneLine : CodeUnit.lineFeed ∉ line

/-- The longest run of spaces and tabs that a line begins with. -/
structure IsIndentation (line run : Text) : Prop where
  begins : run <+: line
  blank : ∀ u ∈ run, u.isSpaceOrTab = true
  longest : ∀ other, other <+: line → (∀ u ∈ other, u.isSpaceOrTab = true) →
    other.length ≤ run.length

/-- The unit `:`. -/
def colon : CodeUnit := 0x3A

/-- Behind its last colon a line has nothing but white space. -/
def EndsInColon (line : Text) : Prop :=
  ∃ stem white, line = stem ++ colon :: white ∧ ∀ u ∈ white, u.isWhite = true

variable {text line run : Text} {cursor : Nat}

/-- The search backwards finds the line before the cursor. -/
theorem isLineBefore_lineBefore (text : Text) (cursor : Nat) :
    IsLineBefore text cursor (lineBefore text cursor) := by
  have hparts : (text.take cursor).rdropWhile (· != CodeUnit.lineFeed)
      ++ (text.take cursor).rtakeWhile (· != CodeUnit.lineFeed) = text.take cursor :=
    List.rdropWhile_append_rtakeWhile ..
  refine ⟨⟨_, hparts.symm, ?_⟩, fun hmem => ?_⟩
  · by_cases hempty : (text.take cursor).rdropWhile (· != CodeUnit.lineFeed) = []
    · exact .inl hempty
    · right
      have hlast := List.rdropWhile_last_not _ _ hempty
      rw [List.getLast?_eq_some_getLast hempty]
      simpa using hlast
  · exact absurd (List.mem_rtakeWhile_imp hmem) (by decide)

/-- There is one line before a cursor only. -/
theorem IsLineBefore.eq (h : IsLineBefore text cursor line) : line = lineBefore text cursor := by
  obtain ⟨⟨front, htake, hfront⟩, hline⟩ := h
  have hunits : ∀ u ∈ line.reverse, (u != CodeUnit.lineFeed) = true := by
    intro u hu
    rw [bne_iff_ne]
    rintro rfl
    exact hline (List.mem_reverse.mp hu)
  have hstop : front.reverse.takeWhile (· != CodeUnit.lineFeed) = [] := by
    rcases hfront with rfl | hlast
    · rfl
    · obtain ⟨init, rfl⟩ := List.getLast?_eq_some_iff.mp hlast
      rw [List.reverse_append, List.reverse_singleton, List.singleton_append,
        List.takeWhile_cons_of_neg (by decide)]
  rw [lineBefore, htake, List.reverse_append, List.takeWhile_append_of_pos hunits, hstop,
    List.append_nil, List.reverse_reverse]

/-- From every place on there is a line. -/
theorem exists_isLineFrom (text : Text) (start : Nat) : ∃ line, IsLineFrom text start line := by
  refine ⟨(text.drop start).takeWhile (· != CodeUnit.lineFeed),
    ⟨(text.drop start).dropWhile (· != CodeUnit.lineFeed), ?_, ?_⟩, fun hmem => ?_⟩
  · exact (List.takeWhile_append_dropWhile ..).symm
  · cases hrest : (text.drop start).dropWhile (· != CodeUnit.lineFeed) with
    | nil => exact .inl rfl
    | cons u rest =>
      right
      have hstop := List.head?_dropWhile_not (· != CodeUnit.lineFeed) (text.drop start)
      rw [hrest] at hstop
      simpa using hstop
  · exact absurd (List.mem_takeWhile_imp hmem) (by decide)

/-- The blanks in front of a line are its indentation. -/
theorem isIndentation_takeWhile (line : Text) :
    IsIndentation line (line.takeWhile CodeUnit.isSpaceOrTab) where
  begins := List.takeWhile_prefix _
  blank _ hu := List.mem_takeWhile_imp hu
  longest := by
    rintro other ⟨rest, rfl⟩ hother
    rw [List.takeWhile_append_of_pos hother, List.length_append]
    exact Nat.le_add_right _ _

/-- A line has one indentation only. -/
theorem IsIndentation.eq (h : IsIndentation line run) :
    run = line.takeWhile CodeUnit.isSpaceOrTab := by
  have hwhole := isIndentation_takeWhile line
  refine (List.prefix_of_prefix_length_le h.begins hwhole.begins ?_).eq_of_length_le ?_
  · exact hwhole.longest run h.begins h.blank
  · exact h.longest _ hwhole.begins hwhole.blank

/-- A line ends in a colon if its text without blanks at the end does. -/
theorem endsInColon_iff :
    EndsInColon line ↔ (Text.ofString ":").isSuffixOf line.trimEnd = true := by
  rw [List.isSuffixOf_iff_suffix]
  constructor
  · rintro ⟨stem, white, rfl, hwhite⟩
    refine ⟨stem, ?_⟩
    rw [Text.trimEnd, List.reverse_append, List.reverse_cons, List.append_assoc,
      List.dropWhile_append_of_pos (fun u hu => hwhite u (List.mem_reverse.mp hu)),
      List.singleton_append, List.dropWhile_cons_of_neg (by decide), List.reverse_cons,
      List.reverse_reverse]
    rfl
  · rintro ⟨stem, hstem⟩
    have hsplit : line.trimEnd ++ line.rtakeWhile CodeUnit.isWhite = line :=
      List.rdropWhile_append_rtakeWhile ..
    refine ⟨stem, line.rtakeWhile CodeUnit.isWhite, ?_, fun u hu => List.mem_rtakeWhile_imp hu⟩
    rw [← hstem, List.append_assoc] at hsplit
    exact hsplit.symm

instance : DecidablePred EndsInColon := fun _ => decidable_of_iff' _ endsInColon_iff

/-- The indentation of the next line, in terms of the line before the cursor. -/
theorem nextLineIndentation_eq (text : Text) (cursor : Nat) :
    nextLineIndentation text cursor
      = if EndsInColon (lineBefore text cursor)
        then (lineBefore text cursor).takeWhile CodeUnit.isSpaceOrTab ++ spaces 4
        else (lineBefore text cursor).takeWhile CodeUnit.isSpaceOrTab := by
  simp only [endsInColon_iff]
  rfl

/-- Indentation is made of spaces and tabs. -/
theorem blank_of_mem_nextLineIndentation :
    ∀ u ∈ nextLineIndentation text cursor, u.isSpaceOrTab = true := by
  have hline := (isIndentation_takeWhile (lineBefore text cursor)).blank
  rw [nextLineIndentation_eq]
  split
  · intro u hu
    rcases List.mem_append.mp hu with hu | hu
    · exact hline u hu
    · rw [List.eq_of_mem_replicate hu]
      rfl
  · exact hline

/-- No colon stands among spaces and tabs. -/
theorem not_endsInColon (hline : ∀ u ∈ line, u.isSpaceOrTab = true) : ¬ EndsInColon line := by
  rintro ⟨stem, white, rfl, -⟩
  exact absurd (hline colon (by simp)) (by decide)

/-- A line with nothing but its indentation passes it on. -/
theorem nextLineIndentation_of_blank (h : IsLineBefore text cursor line)
    (hline : ∀ u ∈ line, u.isSpaceOrTab = true) : nextLineIndentation text cursor = line := by
  rw [nextLineIndentation_eq, ← h.eq, if_neg (not_endsInColon hline)]
  exact List.takeWhile_eq_self_iff.mpr hline

/-- A colon behind the indentation ends it, whatever follows. -/
theorem IsIndentation.append (h : IsIndentation line run) (hcolon : EndsInColon line)
    (rest : Text) : IsIndentation (line ++ rest) run where
  begins := h.begins.trans (List.prefix_append line rest)
  blank := h.blank
  longest := by
    intro other hother hblank
    rcases List.prefix_or_prefix_of_prefix hother (List.prefix_append line rest) with hle | hle
    · exact h.longest other hle hblank
    · exact absurd hcolon (not_endsInColon fun u hu => hblank u (hle.subset hu))

/-- Spaces and tabs in front of a line are added to its indentation. -/
theorem IsIndentation.append_left {rest blanks : Text} (h : IsIndentation rest blanks)
    (hrun : ∀ u ∈ run, u.isSpaceOrTab = true) : IsIndentation (run ++ rest) (run ++ blanks) := by
  rw [h.eq, ← List.takeWhile_append_of_pos hrun]
  exact isIndentation_takeWhile _

/-- They are all of its indentation if the line begins with something else. -/
theorem isIndentation_append_left_iff {rest : Text} (hrun : ∀ u ∈ run, u.isSpaceOrTab = true) :
    IsIndentation (run ++ rest) run ↔ ∀ u, rest.head? = some u → u.isSpaceOrTab = false := by
  have hwhole := (isIndentation_takeWhile rest).append_left hrun
  have hrest : rest.takeWhile CodeUnit.isSpaceOrTab = []
      ↔ ∀ u, rest.head? = some u → u.isSpaceOrTab = false := by
    cases rest with
    | nil => simp
    | cons u rest => by_cases hu : u.isSpaceOrTab = true <;> simp [hu]
  rw [← hrest]
  constructor
  · intro h
    exact List.append_right_eq_self.mp (hwhole.eq.trans h.eq.symm)
  · intro h
    rw [h, List.append_nil] at hwhole
    exact hwhole

/-! ## Enter and Backspace -/

namespace TextArea

variable {before selected after indentation : Text}

/-- A new line has nothing but its indentation before the cursor. -/
theorem isLineBefore_newLine (before after : Text)
    (hblank : ∀ u ∈ indentation, u.isSpaceOrTab = true) :
    IsLineBefore (before ++ CodeUnit.lineFeed :: indentation ++ after)
      (before ++ CodeUnit.lineFeed :: indentation).length indentation where
  ends := ⟨before ++ [CodeUnit.lineFeed], by rw [List.take_left, ← List.append_cons],
    .inr (List.getLast?_concat ..)⟩
  onOneLine hmem := absurd (hblank _ hmem) (by decide)

/-- Enter on a new line writes another one like it. -/
theorem enter_newLine (hblank : ∀ u ∈ indentation, u.isSpaceOrTab = true) :
    (around (before ++ CodeUnit.lineFeed :: indentation) [] after).press .enter
      = writing (CodeUnit.lineFeed :: indentation)
          (before ++ CodeUnit.lineFeed :: indentation) after := by
  have hkept := nextLineIndentation_of_blank (isLineBefore_newLine before after hblank) hblank
  rw [enter_around, newLine, List.append_nil, hkept]

/-- Enter pressed again and again writes new lines with the same indentation. -/
theorem editAll_enter (hblank : ∀ u ∈ indentation, u.isSpaceOrTab = true) (n : Nat)
    (before : Text) :
    (around (before ++ CodeUnit.lineFeed :: indentation) [] after).editAll
        (List.replicate n (.press .enter))
      = around (before ++ repeated (n + 1) (CodeUnit.lineFeed :: indentation)) [] after := by
  induction n generalizing before with
  | zero =>
    have hone : repeated 1 (CodeUnit.lineFeed :: indentation)
        = CodeUnit.lineFeed :: indentation := (repeated_succ 0 _).trans (List.append_nil _)
    rw [hone]
    rfl
  | succ n ih =>
    -- the first of the presses, on a line that has nothing but its indentation before the cursor
    have hstep : (around (before ++ CodeUnit.lineFeed :: indentation) [] after).editAll
          (List.replicate (n + 1) (.press .enter))
        = ((around (before ++ CodeUnit.lineFeed :: indentation) [] after).press .enter).area.editAll
          (List.replicate n (.press .enter)) := rfl
    rw [hstep, enter_newLine hblank, repeated_succ (n + 1), ← List.append_assoc]
    exact ih _

/-- Enter at the cursor or in place of a selection, pressed any number of times. -/
theorem editAll_enter_around (n : Nat) :
    (around before selected after).editAll (List.replicate (n + 1) (.press .enter))
      = around (before ++ repeated (n + 1) (newLine (before ++ selected ++ after) before.length))
          [] after := by
  have hstep : (around before selected after).editAll (List.replicate (n + 1) (.press .enter))
      = ((around before selected after).press .enter).area.editAll
        (List.replicate n (.press .enter)) := rfl
  rw [hstep, enter_around]
  exact editAll_enter blank_of_mem_nextLineIndentation n before

/-- Backspace right after Enter takes back a level that the new line has been given. -/
theorem backspace_enter_around
    (hrun : nextLineIndentation (before ++ selected ++ after) before.length = run ++ spaces 4) :
    ((around before selected after).press .enter).area.press .backspace
      = ⟨true, [], around (before ++ CodeUnit.lineFeed :: run) [] after⟩ := by
  rw [enter_around, writing, newLine, hrun, ← List.cons_append, ← List.append_assoc]
  exact backspace_spaces _ _

/-- The line that Backspace leaves begins with the indentation `run` and goes on with what stood
behind the cursor. -/
theorem isLineFrom_backspace {rest : Text} (hrest : IsLineFrom after 0 rest)
    (hblank : ∀ u ∈ run, u.isSpaceOrTab = true) :
    IsLineFrom (around (before ++ CodeUnit.lineFeed :: run) [] after).value (before.length + 1)
      (run ++ rest) where
  begins := by
    obtain ⟨⟨others, hafter, hothers⟩, -⟩ := hrest
    rw [List.drop_zero] at hafter
    refine ⟨others, ?_, hothers⟩
    simp only [around, List.append_nil, List.append_assoc, List.cons_append, hafter]
    rw [List.append_cons, List.drop_left' (by rw [List.length_append, List.length_singleton])]
  onOneLine hmem := by
    obtain hmem | hmem := List.mem_append.mp hmem
    · exact absurd (hblank _ hmem) (by decide)
    · exact hrest.onOneLine hmem

/-- What Backspace leaves right after Enter, where the cursor has `line` before it, which ends in a
colon and is indented by `run`. -/
structure BacksTo (text : Text) (cursor stop : Nat) (line run : Text) (area : TextArea) : Prop where
  /-- Only the new line is there, with the indentation `run`. -/
  area_eq : area = around (text.take cursor ++ CodeUnit.lineFeed :: run) [] (text.drop stop)
  /-- That is the indentation of the line that Enter was pressed on, whatever it goes on with. -/
  isRun : ∀ rest, IsIndentation (line ++ rest) run
  /-- The new line goes on with what stood behind the cursor, and is indented by the spaces and tabs
  there as well. -/
  newLine : ∃ rest blanks, IsLineFrom text stop rest ∧ IsIndentation rest blanks
    ∧ IsLineFrom area.value (cursor + 1) (run ++ rest) ∧ IsIndentation (run ++ rest) (run ++ blanks)
    ∧ (IsIndentation (run ++ rest) run ↔ ∀ u, rest.head? = some u → u.isSpaceOrTab = false)

/-- How new lines are indented that a text is given at the cursor, in place of what is selected from
there up to `stop`. The cursor has `line` before it on its line, which is indented by `run`. -/
structure IndentsBy (text : Text) (cursor stop : Nat) (line run : Text) : Prop where
  isLine : IsLineBefore text cursor line
  isRun : IsIndentation line run
  indentation : nextLineIndentation text cursor = if EndsInColon line then run ++ spaces 4 else run
  /-- Nothing else of the text counts. -/
  determined : ∀ text' cursor', IsLineBefore text' cursor' line →
    nextLineIndentation text' cursor' = nextLineIndentation text cursor
  /-- Enter can be pressed any number of times, and writes the same line each time. -/
  again : ∀ n, (⟨text, cursor, stop⟩ : TextArea).editAll (List.replicate (n + 1) (.press .enter))
      = around (text.take cursor ++ repeated (n + 1) (newLine text cursor)) [] (text.drop stop)
  /-- After a colon, Backspace takes back what Enter has added to the indentation. -/
  back : EndsInColon line → ∃ area, BacksTo text cursor stop line run area
    ∧ ((⟨text, cursor, stop⟩ : TextArea).press .enter).area.press .backspace = ⟨true, [], area⟩

/-- Backspace takes back the four spaces that Enter wrote behind a colon. -/
theorem backsTo_around (hrun : IsIndentation line run) (hcolon : EndsInColon line) :
    BacksTo (before ++ selected ++ after) before.length (before.length + selected.length) line run
      (around (before ++ CodeUnit.lineFeed :: run) [] after) := by
  obtain ⟨rest, hrest⟩ := exists_isLineFrom after 0
  have hblanks := isIndentation_takeWhile rest
  refine ⟨?_, hrun.append hcolon, rest, _, ⟨?_, hrest.onOneLine⟩, hblanks,
    isLineFrom_backspace hrest hrun.blank, hblanks.append_left hrun.blank,
    isIndentation_append_left_iff hrun.blank⟩
  · rw [take_around, drop_around]
  · rw [drop_around]
    exact hrest.begins

/-- Wherever the cursor stands and whatever is selected behind it, new lines are indented as the
line before the cursor says. -/
theorem indentation_of_enter {stop : Nat} (hcursor : cursor ≤ stop) (hstop : stop ≤ text.length) :
    ∃ line run, IndentsBy text cursor stop line run := by
  have hsound : IsSound ⟨text, cursor, stop⟩ := ⟨hcursor, hstop⟩
  obtain ⟨before, selected, after, hparts⟩ := exists_eq_around hsound
  obtain ⟨rfl, rfl, rfl⟩ := TextArea.mk.inj hparts
  have hline := isLineBefore_lineBefore (before ++ selected ++ after) before.length
  have hindentation := nextLineIndentation_eq (before ++ selected ++ after) before.length
  refine ⟨_, _, hline, isIndentation_takeWhile _, hindentation, fun text' cursor' hline' => ?_,
    fun n => ?_, fun hcolon => ⟨_, backsTo_around (isIndentation_takeWhile _) hcolon, ?_⟩⟩
  · rw [hindentation, nextLineIndentation_eq, ← hline'.eq]
  · rw [take_around, drop_around]
    exact editAll_enter_around n
  · rw [if_pos hcolon] at hindentation
    exact backspace_enter_around hindentation

/-- A loop with a space behind its colon, and a line below it. -/
def loopHead : Text := Text.joinLines ["  while x < 3: ", "y"]

theorem indentation_of_enter_loopHead :
    15 ≤ 15 ∧ 15 ≤ loopHead.length
      ∧ nextLineIndentation loopHead 15 = spaces 6
      ∧ EndsInColon (lineBefore loopHead 15)
      ∧ ∃ line run, IndentsBy loopHead 15 15 line run :=
  ⟨le_rfl, by decide, by decide, by decide, indentation_of_enter le_rfl (by decide)⟩

/-- A condition with its body behind it, and a space in between. -/
def spacedBody : Text := "if x: y"

/-- With the cursor right behind the colon, the space stays in front of the body. So Backspace
leaves the body indented by it, although the line above has no indentation. -/
theorem backspace_spacedBody : ∃ area,
    ((⟨spacedBody, 5, 5⟩ : TextArea).press .enter).area.press .backspace = ⟨true, [], area⟩
      ∧ EndsInColon (lineBefore spacedBody 5) ∧ IsIndentation spacedBody []
      ∧ area.value = Text.joinLines ["if x:", " y"] ∧ IsLineFrom area.value 6 " y"
      ∧ IsIndentation " y" " " ∧ ¬ IsIndentation " y" [] := by
  refine ⟨_, rfl, by decide, isIndentation_takeWhile spacedBody, rfl, ⟨⟨[], rfl, .inl rfl⟩, ?_⟩,
    isIndentation_takeWhile " y", fun h => ?_⟩
  · decide
  · exact absurd h.eq (by decide)

end TextArea

end Plume.Editor
