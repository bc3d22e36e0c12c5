import Mathlib.Data.List.Find
import Plume.Token.Scanner

/-!
# Reading a line lexeme by lexeme

The scanner goes through a line unit by unit and counts off the units of a token that it has met.
Seen from outside it goes by lexemes: a blank, a whole token or a unit that is a problem, and then
the rest of the line (`scanLine_blank`, `scanLine_token`, `scanLine_problem`). `lexemeInduction` is
the induction that belongs to these equations.

What starts at a unit is fixed by that unit and some of those behind it. A unit that goes on with no
token may therefore be put behind a line that has no problem, with anything behind it, and the line
is read as before (`scanLine_append`).
-/

namespace Plume.Token

variable {u c : CodeUnit} {rest more : Text} {kind : TokenKind} {n : Nat} {problem : Problem}

/-! ## The units of a token -/

/-- Where a run of units ends before the end of a text, a unit follows that is not of the run. -/
theorem exists_take_eq (p : CodeUnit → Bool) {text : Text}
    (h : (text.takeWhile p).length < text.length) :
    ∃ x, text.take ((text.takeWhile p).length + 1) = text.takeWhile p ++ [x] ∧ p x = false := by
  induction text with
  | nil => simp at h
  | cons v text ih =>
    cases hv : p v with
    | false => exact ⟨v, by simp [hv], hv⟩
    | true =>
      rw [List.takeWhile_cons_of_pos hv] at h ⊢
      obtain ⟨x, htake, hx⟩ := ih (by simpa using h)
      exact ⟨x, congrArg (v :: ·) htake, hx⟩

/-- A number takes its digits and no more than there is. -/
theorem startNumber_eq (rest : Text) :
    ∃ value n, startNumber rest = .token (.number value) n
      ∧ (rest.takeWhile CodeUnit.isDigit).length ≤ n ∧ n ≤ rest.length := by
  have hwhole := (List.takeWhile_prefix CodeUnit.isDigit (l := rest)).length_le
  cases hdrop : rest.drop (rest.takeWhile CodeUnit.isDigit).length with
  | nil => exact ⟨_, _, by simp only [startNumber, hdrop]; rfl, le_refl _, hwhole⟩
  | cons point after =>
    have hfraction := (List.takeWhile_prefix CodeUnit.isDigit (l := after)).length_le
    have hlength := congrArg List.length hdrop
    rw [List.length_drop, List.length_cons] at hlength
    by_cases hpoint : (point == 0x2E && !(after.takeWhile CodeUnit.isDigit).isEmpty) = true
    · exact ⟨_, _, by simp only [startNumber, hdrop, hpoint, if_true]; rfl, by omega, by omega⟩
    · exact ⟨_, _, by simp only [startNumber, hdrop, hpoint]; rfl, le_refl _, hwhole⟩

/-- All that can start at a unit, and when it does. -/
inductive Starts (u : CodeUnit) (rest : Text) : Start → Prop
  | blank : u.isSpaceOrTab = true → Starts u rest .blank
  | word : u.isSpaceOrTab = false → u.isLetter = true →
      Starts u rest (.token (.ofWord ((u :: rest).takeWhile CodeUnit.isNameUnit))
        ((u :: rest).takeWhile CodeUnit.isNameUnit).length)
  | number {value : Number} {n : Nat} :
      u.isSpaceOrTab = false → u.isLetter = false → u.isDigit = true →
      startNumber (u :: rest) = .token (.number value) n → Starts u rest (.token (.number value) n)
  | string : u = quote → (rest.takeWhile (· != quote)).length < rest.length →
      Starts u rest (.token (.string (rest.takeWhile (· != quote)))
        ((rest.takeWhile (· != quote)).length + 2))
  | unterminated : u = quote → Starts u rest (.problem .unterminatedString)
  | mark {text : Text} {kind : TokenKind} :
      u.isSpaceOrTab = false → u.isLetter = false → u.isDigit = false → u ≠ quote →
      TokenKind.marks.find? (·.1.isPrefixOf (u :: rest)) = some (text, kind) →
      Starts u rest (.token kind text.length)
  | illegal : u.isSpaceOrTab = false → Starts u rest (.problem (.illegalCharacter u))

/-- What is found at the front of a line starts there, in the way that its first unit tells. -/
theorem starts_startAt (u : CodeUnit) (rest : Text) : Starts u rest (startAt u rest) := by
  unfold startAt
  -- the tests are made in this order, and each is made only where those before it have failed
  split
  next hblank => exact .blank hblank
  next hblank =>
    rw [Bool.not_eq_true] at hblank
    split
    next hletter => exact .word hblank hletter
    next hletter =>
      rw [Bool.not_eq_true] at hletter
      split
      next hdigit =>
        obtain ⟨value, n, heq, -⟩ := startNumber_eq (u :: rest)
        rw [heq]
        exact .number hblank hletter hdigit heq
      next hdigit =>
        rw [Bool.not_eq_true] at hdigit
        split
        next hquote =>
          rw [beq_iff_eq] at hquote
          dsimp only
          split
          next hlt => exact .string hquote hlt
          next => exact .unterminated hquote
        next hquote =>
          rw [beq_iff_eq] at hquote
          split
          next text kind hfind => exact .mark hblank hletter hdigit hquote hfind
          next => exact .illegal hblank

/-- Whether a kind is neither that of a string nor the end of input. -/
def isPlain : TokenKind → Bool
  | .string _ | .endOfInput => false
  | _ => true

/-- A word is neither a string nor the end of input. -/
theorem isPlain_ofWord (word : Text) : isPlain (.ofWord word) = true := by
  have hkeywords : ∀ k ∈ TokenKind.keywords, isPlain k.2 = true := by decide
  rw [TokenKind.ofWord]
  cases h : TokenKind.keywords.lookup word with
  | none => rfl
  | some kind =>
    obtain ⟨before, after, heq, -⟩ := List.lookup_eq_some_iff.mp h
    exact hkeywords (word, kind) (by simp [heq])

/-- What a token that starts at a unit is like: it has units and lies within its line, it is not the
end of input, and a string stands between quotes. -/
structure Fits (u : CodeUnit) (rest : Text) (kind : TokenKind) (n : Nat) : Prop where
  pos : 0 < n
  le : n ≤ (u :: rest).length
  kind_ne : kind ≠ .endOfInput
  string : ∀ value, kind = .string value → (u :: rest).take n = quote :: value ++ [quote]

/-- A token with no content of its own fits if it has units and they are there. -/
theorem fits_of_isPlain (hkind : isPlain kind = true) (hpos : 0 < n)
    (hle : n ≤ (u :: rest).length) : Fits u rest kind n := by
  refine ⟨hpos, hle, ?_, ?_⟩
  · rintro rfl
    cases hkind
  · rintro value rfl
    cases hkind

/-- What starts at the front of a line fits there. -/
theorem fits_of_starts (h : Starts u rest (.token kind n)) : Fits u rest kind n := by
  cases h with
  | word hblank hletter =>
    refine fits_of_isPlain (isPlain_ofWord _) ?_ (List.takeWhile_prefix _).length_le
    rw [List.takeWhile_cons_of_pos (by rw [CodeUnit.isNameUnit, hletter, Bool.true_or])]
    exact Nat.succ_pos _
  | number hblank hletter hdigit heq =>
    obtain ⟨value, n', heq', hdigits, hle⟩ := startNumber_eq (u :: rest)
    rw [heq] at heq'
    cases heq'
    refine fits_of_isPlain rfl (Nat.lt_of_lt_of_le ?_ hdigits) hle
    rw [List.takeWhile_cons_of_pos hdigit]
    exact Nat.succ_pos _
  -- the string with its two quotes is what is cut off
  | string hquote hlt =>
    obtain ⟨x, htake, hx⟩ := exists_take_eq _ hlt
    refine ⟨Nat.succ_pos _, Nat.succ_le_succ hlt, nofun, ?_⟩
    rintro value ⟨⟩
    have hx : x = quote := by simpa using hx
    rw [List.take_succ_cons, htake, hquote, hx, List.cons_append]
  | @mark text kind hblank hletter hdigit hquote hfind =>
    have hmarks : ∀ m ∈ TokenKind.marks, 0 < m.1.length ∧ isPlain m.2 = true := by decide
    obtain ⟨hpos, hkind⟩ := hmarks _ (List.mem_of_find?_eq_some hfind)
    have hfound := List.find?_some hfind
    have hprefix : text <+: u :: rest := List.isPrefixOf_iff_prefix.mp hfound
    exact fits_of_isPlain hkind hpos hprefix.length_le

theorem fits_of_startAt (h : startAt u rest = .token kind n) : Fits u rest kind n :=
  fits_of_starts (h ▸ starts_startAt u rest)

/-- Only blanks are skipped. -/
theorem isSpaceOrTab_of_startAt (h : startAt u rest = .blank) : u.isSpaceOrTab = true := by
  have hstarts := starts_startAt u rest
  rw [h] at hstarts
  cases hstarts with
  | blank hblank => exact hblank

/-- A problem is one of the scanner's own, and no blank is one. -/
theorem lexical_of_startAt (h : startAt u rest = .problem problem) :
    problem.kind = .lexical ∧ u.isSpaceOrTab = false := by
  have hstarts := starts_startAt u rest
  rw [h] at hstarts
  cases hstarts with
  | unterminated hquote => exact ⟨rfl, by rw [hquote]; rfl⟩
  | illegal hblank => exact ⟨rfl, hblank⟩

/-! ## Lexeme by lexeme -/

variable {line column : Nat}

/-- Units that belong to the token before are passed over. -/
theorem scanLine_skip (skip : Nat) (text : Text) :
    scanLine line column skip text = scanLine line (column + skip) 0 (text.drop skip) := by
  induction text generalizing column skip with
  | nil => rw [List.drop_nil, scanLine, scanLine]
  | cons v text ih =>
    cases skip with
    | zero => rfl
    | succ n =>
      rw [scanLine, ih, List.drop_succ_cons]
      congr 1
      omega

theorem scanLine_blank (h : startAt u rest = .blank) :
    scanLine line column 0 (u :: rest) = scanLine line (column + 1) 0 rest := by
  rw [scanLine, h]

/-- A problem is noted, and the unit left behind. -/
theorem scanLine_problem (h : startAt u rest = .problem problem) :
    scanLine line column 0 (u :: rest)
      = .error ⟨problem, ⟨line, column⟩⟩ :: scanLine line (column + 1) 0 rest := by
  rw [scanLine, h]

/-- A token is cut off, and the scan goes on behind it. -/
theorem scanLine_token (h : startAt u rest = .token kind n) :
    scanLine line column 0 (u :: rest)
      = .ok ⟨kind, (u :: rest).take n, ⟨⟨line, column⟩, ⟨line, column + n⟩⟩⟩
        :: scanLine line (column + n) 0 ((u :: rest).drop n) := by
  obtain ⟨m, rfl⟩ := Nat.exists_eq_add_of_le' (fits_of_startAt h).pos
  rw [scanLine, h]
  simp only [Nat.add_sub_cancel]
  rw [scanLine_skip, List.drop_succ_cons, Nat.add_assoc, Nat.add_comm 1]

/-- What holds of the empty text, and of a text if it holds behind the first lexeme, holds of every
text. -/
theorem lexemeInduction {P : Text → Prop} (nil : P [])
    (blank : ∀ u rest, startAt u rest = .blank → P rest → P (u :: rest))
    (token : ∀ u rest kind n, startAt u rest = .token kind n → P ((u :: rest).drop n) →
      P (u :: rest))
    (problem : ∀ u rest problem, startAt u rest = .problem problem → P rest → P (u :: rest))
    (text : Text) : P text := by
  induction hlength : text.length using Nat.strong_induction_on generalizing text with
  | h length ih =>
    cases text with
    | nil => exact nil
    | cons u rest =>
      have hrest : P rest := ih rest.length (by rw [← hlength]; exact Nat.lt_succ_self _) rest rfl
      cases h : startAt u rest with
      | blank => exact blank u rest h hrest
      | problem problem' => exact problem u rest problem' h hrest
      | token kind n =>
        -- a token has a unit at least, so there is less behind it
        refine token u rest kind n h (ih _ ?_ _ rfl)
        have hpos := (fits_of_startAt h).pos
        rw [← hlength, List.length_drop, List.length_cons]
        omega

/-! ## Line by line -/

/-- The tokens and the problems of the lines from line `line` on, without the end of input. -/
def scanEach (line : Nat) : List Text → List (Except Diagnostic Token)
  | [] => []
  | first :: rest => scanLine line 1 0 first ++ scanEach (line + 1) rest

/-- The token for the end of input at the given place. -/
def endAt (place : Position) : Token := ⟨.endOfInput, [], ⟨place, place⟩⟩

/-- The lines are scanned one by one, and the end of input stands behind the last. -/
theorem scanLines_append_singleton (line : Nat) (init : List Text) (last : Text) :
    scanLines line (init ++ [last])
      = scanEach line (init ++ [last]) ++ [.ok (endAt ⟨line + init.length, last.length + 1⟩)] := by
  induction init generalizing line with
  | nil => simp [scanLines, scanEach, endAt]
  | cons first rest ih =>
    have hcons : scanLines line (first :: (rest ++ [last]))
        = scanLine line 1 0 first ++ scanLines (line + 1) (rest ++ [last]) := by
      rw [scanLines]
      simp
    rw [List.cons_append, hcons, ih, scanEach, List.append_assoc, List.length_cons,
      Nat.add_right_comm, Nat.add_assoc]

/-- What is scanned is scanned on one of the lines. -/
theorem mem_scanEach {lines : List Text} {i : Except Diagnostic Token}
    (h : i ∈ scanEach line lines) :
    ∃ k text, lines[k]? = some text ∧ i ∈ scanLine (line + k) 1 0 text := by
  induction lines generalizing line with
  | nil => cases h
  | cons first rest ih =>
    rcases List.mem_append.mp h with hfirst | hrest
    · exact ⟨0, first, rfl, hfirst⟩
    · obtain ⟨k, text, htext, hmem⟩ := ih hrest
      refine ⟨k + 1, text, htext, ?_⟩
      rwa [Nat.add_right_comm, Nat.add_assoc] at hmem

/-- The problem of an item. -/
def problem? : Except Diagnostic Token → Option Diagnostic
  | .ok _ => none
  | .error d => some d

theorem mem_filterMap_toOption {t : Token} {items : List (Except Diagnostic Token)} :
    t ∈ items.filterMap Except.toOption ↔ .ok t ∈ items := by
  rw [List.mem_filterMap]
  constructor
  · rintro ⟨i, hi, ht⟩
    cases i with
    | error d => cases ht
    | ok t' => exact Option.some.inj ht ▸ hi
  · exact fun ht => ⟨_, ht, rfl⟩

theorem mem_filterMap_problem? {d : Diagnostic} {items : List (Except Diagnostic Token)} :
    d ∈ items.filterMap problem? ↔ .error d ∈ items := by
  rw [List.mem_filterMap]
  constructor
  · rintro ⟨i, hi, hd⟩
    cases i with
    | ok t => cases hd
    | error d' => exact Option.some.inj hd ▸ hi
  · exact fun hd => ⟨_, hd, rfl⟩

/-- Every text has a line. -/
theorem lines_ne_nil (text : Text) : text.lines ≠ [] := by
  induction text with
  | nil => exact nofun
  | cons u rest ih =>
    rw [Text.lines]
    split
    · exact nofun
    · split
      · exact ih
      · rwa [ne_eq, List.modifyHead_eq_nil_iff]

theorem exists_last_line (source : Text) : ∃ last, source.lines.getLast? = some last :=
  ⟨_, List.getLast?_eq_some_getLast (lines_ne_nil source)⟩

section Source

variable {source last : Text} (hlast : source.lines.getLast? = some last)
include hlast

/-- A source gives the tokens and the problems of its lines, and the end of input behind them. -/
theorem scan_eq :
    scan source
      = scanEach 1 source.lines ++ [.ok (endAt ⟨source.lines.length, last.length + 1⟩)] := by
  obtain ⟨init, hlines⟩ := List.getLast?_eq_some_iff.mp hlast
  rw [scan, hlines, scanLines_append_singleton, List.length_append, List.length_singleton,
    Nat.add_comm 1]

/-- The tokens of a text are those of its lines, and the end of input. -/
theorem tokens_tokenize :
    (tokenize source).tokens = (scanEach 1 source.lines).filterMap Except.toOption
      ++ [endAt ⟨source.lines.length, last.length + 1⟩] :=
  (congrArg (List.filterMap Except.toOption) (scan_eq hlast)).trans List.filterMap_append

end Source

/-- The errors of a text are those of its lines. -/
theorem errors_tokenize (source : Text) :
    (tokenize source).errors = (scanEach 1 source.lines).filterMap problem? := by
  obtain ⟨last, hlast⟩ := exists_last_line source
  refine (congrArg (List.filterMap problem?) (scan_eq hlast)).trans ?_
  rw [List.filterMap_append]
  exact List.append_nil _

/-! ## A unit behind a line -/

/-- Whether a unit goes on with no token but a string. -/
def separates (c : CodeUnit) : Bool := !c.isNameUnit && c != 0x2E && c != 0x3D

/-- What a unit ends, nothing behind that unit can make longer. -/
theorem takeWhile_append_cons {p : CodeUnit → Bool} (hc : p c = false) (text : Text) :
    (text ++ c :: more).takeWhile p = text.takeWhile p := by
  rw [List.takeWhile_append, List.takeWhile_cons_of_neg (by simp [hc]), List.append_nil]
  split
  next h => exact ((List.takeWhile_prefix p).eq_of_length h).symm
  next => rfl

/-- A number is not changed by a separator behind it. -/
theorem startNumber_append (hc : separates c = true) (text : Text) :
    startNumber (text ++ c :: more) = startNumber text := by
  have hdigit : c.isDigit = false := by
    simp [separates, CodeUnit.isNameUnit] at hc
    simp [hc]
  have hpoint : (c == 0x2E) = false := by
    simp [separates] at hc
    simp [hc]
  have hwhole : (text ++ c :: more).takeWhile CodeUnit.isDigit = text.takeWhile CodeUnit.isDigit :=
    takeWhile_append_cons hdigit text
  have hle := (List.takeWhile_prefix CodeUnit.isDigit (l := text)).length_le
  simp only [startNumber, hwhole, List.drop_append_of_le_length hle]
  cases hdrop : text.drop (text.takeWhile CodeUnit.isDigit).length with
  | nil => simp [hpoint]
  | cons point after => simp only [List.cons_append, takeWhile_append_cons hdigit]

/-- A mark is one unit, or one and `=`. -/
theorem isPrefixOf_append (hc : separates c = true) {m : Text × TokenKind}
    (hm : m ∈ TokenKind.marks) :
    m.1.isPrefixOf (u :: (rest ++ c :: more)) = m.1.isPrefixOf (u :: rest) := by
  have hmarks : ∀ m ∈ TokenKind.marks, m.1 = [m.1.headD 0] ∨ m.1 = [m.1.headD 0, 0x3D] := by decide
  rcases hmarks m hm with hone | htwo
  · rw [hone]
    rfl
  · rw [htwo]
    cases rest with
    | nil =>
      have hequals : (0x3D : CodeUnit) ≠ c := by
        rintro rfl
        cases hc
      simp [List.isPrefixOf, hequals]
    | cons v rest => rfl

/-- What is found at the front of a line is not changed by a separator behind the line, unless it is
a problem. -/
theorem startAt_append (hc : separates c = true)
    (h : ∀ problem, startAt u rest ≠ .problem problem) :
    startAt u (rest ++ c :: more) = startAt u rest := by
  have hname : c.isNameUnit = false := by
    simp [separates] at hc
    simp [hc]
  have hstarts := starts_startAt u rest
  generalize hstart : startAt u rest = start at hstarts h
  cases hstarts with
  | blank hblank => simp [startAt, hblank]
  | word hblank hletter =>
    rw [← hstart]
    simp only [startAt, hblank, hletter, ← List.cons_append, takeWhile_append_cons hname, if_true,
      Bool.false_eq_true, if_false]
  | number hblank hletter hdigit hnumber =>
    rw [← hstart]
    simp only [startAt, hblank, hletter, hdigit, ← List.cons_append, startNumber_append hc,
      if_true, Bool.false_eq_true, if_false]
  | string hquote hlt =>
    subst hquote
    -- the closing quote is there already, so what follows is not looked at
    have hcontent : (rest ++ c :: more).takeWhile (· != quote) = rest.takeWhile (· != quote) := by
      rw [List.takeWhile_append, if_neg (Nat.ne_of_lt hlt)]
    have hblank : quote.isSpaceOrTab = false := rfl
    have hletter : quote.isLetter = false := rfl
    have hdigit : quote.isDigit = false := rfl
    have hlt' : (rest.takeWhile (· != quote)).length < (rest ++ c :: more).length := by
      rw [List.length_append]
      omega
    simp only [startAt, hblank, hletter, hdigit, hcontent, hlt', beq_self_eq_true, if_true,
      Bool.false_eq_true, if_false]
  | unterminated => exact absurd rfl (h _)
  | mark hblank hletter hdigit hquote hfind =>
    rw [← hstart]
    -- no mark reaches over a separator
    have hmarks : TokenKind.marks.find? (·.1.isPrefixOf (u :: (rest ++ c :: more)))
        = TokenKind.marks.find? (·.1.isPrefixOf (u :: rest)) :=
      List.find?_congr fun m hm => isPrefixOf_append hc hm
    simp only [startAt, hmarks]
    simp [hblank, hletter, hdigit, hquote]
  | illegal => exact absurd rfl (h _)

/-- A line without problems is read as before if a separating unit is put behind it. -/
theorem scanLine_append (hc : separates c = true) (text : Text)
    (h : ∀ d, .error d ∉ scanLine line column 0 text) :
    scanLine line column 0 (text ++ c :: more)
      = scanLine line column 0 text ++ scanLine line (column + text.length) 0 (c :: more) := by
  induction text using lexemeInduction generalizing column with
  | nil => rfl
  | blank u rest hstart ih =>
    have hstart' : startAt u (rest ++ c :: more) = .blank := by
      rw [startAt_append hc (by simp [hstart]), hstart]
    rw [scanLine_blank hstart] at h ⊢
    rw [List.cons_append, scanLine_blank hstart', ih h, List.length_cons, Nat.add_assoc,
      Nat.add_comm 1]
  | problem u rest problem hstart ih =>
    rw [scanLine_problem hstart] at h
    exact absurd List.mem_cons_self (h _)
  -- the token is the same with the separator behind the line, and so is what is left of the line
  | token u rest kind n hstart ih =>
    have hstart' : startAt u (rest ++ c :: more) = .token kind n := by
      rw [startAt_append hc (by simp [hstart]), hstart]
    have hle := (fits_of_startAt hstart).le
    have hcolumn : column + n + ((u :: rest).length - n) = column + (u :: rest).length := by omega
    rw [scanLine_token hstart] at h ⊢
    rw [List.cons_append, scanLine_token hstart', ← List.cons_append,
      List.take_append_of_le_length hle, List.drop_append_of_le_length hle,
      ih fun d hd => h d (List.mem_cons_of_mem _ hd), List.cons_append, List.length_drop,
      hcolumn]

end Plume.Token
