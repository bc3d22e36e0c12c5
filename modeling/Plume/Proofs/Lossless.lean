import Mathlib.Order.Defs.PartialOrder
import Plume.Proofs.Reading
import Plume.Proofs.Scanning

/-!
# Scanning loses nothing

Every unit of a source is accounted for. It belongs to one token, or is a blank between tokens, or
is reported as a problem, and only one of these. Tokens and problems come in the order of the source
and stand where they say they do.

## Shape of the proof

`Cut` is the scan of a line without the scanner: a text cut into blanks, tokens and problems, each
with its columns. The scanner cuts every line (`cut_scanLine`), and what holds of a line follows by
induction on the cut: where its items lie (`Cut.lies`), that they follow one another
(`Cut.pairwise`), and what accounts for a unit (`Cut.accounted`). The lines of a source are then put
one behind the other. Items of different lines never meet, as the line comes first in the order of
positions.
-/

namespace Plume

/-! ## The order of a source -/

/-- Positions are ordered by line, and those of a line by column. -/
instance : PartialOrder Position where
  le p q := p.line < q.line ∨ p.line = q.line ∧ p.column ≤ q.column
  lt p q := p.line < q.line ∨ p.line = q.line ∧ p.column < q.column
  le_refl p := .inr ⟨rfl, le_refl _⟩
  le_trans p q r hpq hqr := by omega
  lt_iff_le_not_ge p q := by omega
  le_antisymm p q hpq hqp := by
    obtain ⟨line, column⟩ := p
    obtain ⟨line', column'⟩ := q
    simp only [Position.mk.injEq]
    simp only at hpq hqp
    omega

namespace Position

variable {p q : Position}

theorem le_iff : p ≤ q ↔ p.line < q.line ∨ p.line = q.line ∧ p.column ≤ q.column := Iff.rfl

theorem lt_iff : p < q ↔ p.line < q.line ∨ p.line = q.line ∧ p.column < q.column := Iff.rfl

/-- On one line the column decides. -/
@[simp]
theorem mk_le_mk {line column column' : Nat} :
    (⟨line, column⟩ : Position) ≤ ⟨line, column'⟩ ↔ column ≤ column' := by
  simp [le_iff]

@[simp]
theorem mk_lt_mk {line column column' : Nat} :
    (⟨line, column⟩ : Position) < ⟨line, column'⟩ ↔ column < column' := by
  simp [lt_iff]

instance : DecidableLE Position := fun p q =>
  inferInstanceAs (Decidable (p.line < q.line ∨ p.line = q.line ∧ p.column ≤ q.column))

instance : DecidableLT Position := fun p q =>
  inferInstanceAs (Decidable (p.line < q.line ∨ p.line = q.line ∧ p.column < q.column))

end Position

/-- Whether a place lies in a stretch of source. -/
def Span.covers (s : Span) (p : Position) : Bool := s.start ≤ p && p < s.stop

/-! ## The lines of a source -/

/-- A text is made up of lines, each but the last with LF or CR LF behind it. A CR before LF is not
part of the line. -/
inductive SplitsInto : Text → List Text → Prop
  | last {line : Text} : CodeUnit.lineFeed ∉ line → SplitsInto line [line]
  | lineFeed {line rest : Text} {lines : List Text} : CodeUnit.lineFeed ∉ line →
      line.getLast? ≠ some CodeUnit.carriageReturn → SplitsInto rest lines →
        SplitsInto (line ++ CodeUnit.lineFeed :: rest) (line :: lines)
  | carriageReturn {line rest : Text} {lines : List Text} : CodeUnit.lineFeed ∉ line →
      SplitsInto rest lines →
        SplitsInto (line ++ CodeUnit.carriageReturn :: CodeUnit.lineFeed :: rest) (line :: lines)

/-- A unit that ends no line belongs to the first one. -/
theorem SplitsInto.cons {u : CodeUnit} {text : Text} {lines : List Text} (h : SplitsInto text lines)
    (hu : u ≠ CodeUnit.lineFeed)
    (hreturn : u = CodeUnit.carriageReturn → text.head? ≠ some CodeUnit.lineFeed) :
    SplitsInto (u :: text) (lines.modifyHead (u :: ·)) := by
  have hnotMem : ∀ line : Text, CodeUnit.lineFeed ∉ line → CodeUnit.lineFeed ∉ u :: line := by
    intro line hline hmem
    rcases List.mem_cons.mp hmem with heq | hmem
    · exact hu heq.symm
    · exact hline hmem
  cases h with
  | last hline => exact .last (hnotMem _ hline)
  -- the new unit is not the carriage return of this end, unless the line was empty
  | @lineFeed line rest lines hline hlast hrest =>
    refine @SplitsInto.lineFeed (u :: line) rest lines (hnotMem _ hline) ?_ hrest
    cases line with
    | nil => exact fun heq => hreturn (Option.some.inj heq) rfl
    | cons v line => exact hlast
  | @carriageReturn line rest lines hline hrest =>
    exact @SplitsInto.carriageReturn (u :: line) rest lines (hnotMem _ hline) hrest

/-- An LF at the start ends an empty line. -/
theorem SplitsInto.of_lineFeed {rest : Text} {lines : List Text}
    (h : SplitsInto (CodeUnit.lineFeed :: rest) ([] :: lines)) : SplitsInto rest lines := by
  generalize htext : CodeUnit.lineFeed :: rest = text at h
  generalize hlines : ([] : Text) :: lines = all at h
  cases h with
  | last hline =>
    cases hlines
    cases htext
  | lineFeed hline hlast hrest =>
    cases hlines
    obtain ⟨-, rfl⟩ := List.cons.inj htext
    exact hrest
  | carriageReturn hline hrest =>
    cases hlines
    exact absurd (List.cons.inj htext).1 (by decide)

/-- Lines with their ends between them are the whole text. -/
theorem splitsInto_lines (text : Text) : SplitsInto text text.lines := by
  induction text with
  | nil => exact .last List.not_mem_nil
  | cons u rest ih =>
    rw [Text.lines]
    split
    next hfeed =>
      obtain rfl := beq_iff_eq.mp hfeed
      exact @SplitsInto.lineFeed [] rest _ List.not_mem_nil (by simp) ih
    next hfeed =>
      split
      next hreturn =>
        rw [Bool.and_eq_true, beq_iff_eq, beq_iff_eq] at hreturn
        obtain ⟨rfl, hhead⟩ := hreturn
        -- the LF that follows ends the line, which is empty
        cases rest with
        | nil => cases hhead
        | cons v rest =>
          obtain rfl := Option.some.inj hhead
          exact @SplitsInto.carriageReturn [] rest _ List.not_mem_nil ih.of_lineFeed
      next hreturn =>
        refine ih.cons (fun heq => hfeed (beq_iff_eq.mpr heq)) ?_
        intro heq hhead
        exact hreturn (by rw [heq, hhead]; rfl)

/-! ## What lossless means -/

namespace Scanned

/-- The tokens that lie over a place. -/
def tokensAt (scanned : Scanned) (p : Position) : List Token :=
  scanned.tokens.filter (·.span.covers p)

/-- The problems that were met at a place. -/
def errorsAt (scanned : Scanned) (p : Position) : List Diagnostic :=
  scanned.errors.filter (·.position = p)

end Scanned

/-- How a unit is accounted for by the tokens over its place and the problems at it: it is in one
token, or it is a blank, or it is a problem. -/
inductive Accounted (u : CodeUnit) : List Token → List Diagnostic → Prop
  | token (t : Token) : Accounted u [t] []
  | blank : u.isSpaceOrTab = true → Accounted u [] []
  | problem (d : Diagnostic) : u.isSpaceOrTab = false → Accounted u [] [d]

/-- The token's text stands in the text where its span says, if the text starts at the given line
and column. -/
def Token.IsSliceOf (t : Token) (line column : Nat) (text : Text) : Prop :=
  ∃ before after, text = before ++ t.text ++ after
    ∧ t.span = ⟨⟨line, column + before.length⟩, ⟨line, column + before.length + t.text.length⟩⟩

/-- The lines of a source are accounted for unit by unit, by tokens and problems in order. -/
structure Scanned.Lossless (scanned : Scanned) (lines : List Text) : Prop where
  accounted : ∀ i text, lines[i]? = some text → ∀ j u, text[j]? = some u →
    Accounted u (scanned.tokensAt ⟨i + 1, j + 1⟩) (scanned.errorsAt ⟨i + 1, j + 1⟩)
  slices : ∀ t ∈ scanned.tokens, ∃ i text, lines[i]? = some text ∧ t.IsSliceOf (i + 1) 1 text
  nonempty : ∀ t ∈ scanned.tokens, t.kind ≠ .endOfInput → t.text ≠ []
  strings : ∀ t ∈ scanned.tokens, ∀ value, t.kind = .string value →
    t.text = Token.quote :: value ++ [Token.quote]
  tokensOrdered : scanned.tokens.Pairwise fun s t =>
    s.span.start < t.span.start ∧ s.span.stop ≤ t.span.start
  errorsOrdered : scanned.errors.Pairwise fun d e => d.position < e.position
  lexical : ∀ d ∈ scanned.errors, d.problem.kind = .lexical
  /-- A problem is met at a unit. -/
  placed : ∀ d ∈ scanned.errors, ∃ i text, lines[i]? = some text
    ∧ ∃ j < text.length, d.position = ⟨i + 1, j + 1⟩
  terminated : Terminated scanned.tokens
  /-- The end of input is behind the last line. -/
  stop : ∀ t ∈ scanned.tokens, t.kind = .endOfInput → ∃ last, lines.getLast? = some last
    ∧ t.span.start = ⟨lines.length, last.length + 1⟩ ∧ t.span.stop = t.span.start

namespace Token

variable {u : CodeUnit} {line column : Nat} {text rest : Text} {i : Except Diagnostic Token}
  {items : List (Except Diagnostic Token)} {p : Position}

/-! ## The items of a line -/

/-- A text that starts at the given line and column, cut into blanks, tokens and problems. -/
inductive Cut (line : Nat) : Nat → Text → List (Except Diagnostic Token) → Prop
  | nil {column : Nat} : Cut line column [] []
  | blank {column : Nat} {u : CodeUnit} {rest : Text} {items : List (Except Diagnostic Token)} :
      u.isSpaceOrTab = true → Cut line (column + 1) rest items → Cut line column (u :: rest) items
  | token {column : Nat} {kind : TokenKind} {text rest : Text}
      {items : List (Except Diagnostic Token)} :
      text ≠ [] → kind ≠ .endOfInput →
      (∀ value, kind = .string value → text = quote :: value ++ [quote]) →
      Cut line (column + text.length) rest items →
        Cut line column (text ++ rest)
          (.ok ⟨kind, text, ⟨⟨line, column⟩, ⟨line, column + text.length⟩⟩⟩ :: items)
  | problem {column : Nat} {u : CodeUnit} {rest : Text} {problem : Problem}
      {items : List (Except Diagnostic Token)} :
      u.isSpaceOrTab = false → problem.kind = .lexical → Cut line (column + 1) rest items →
        Cut line column (u :: rest) (.error ⟨problem, ⟨line, column⟩⟩ :: items)

/-- The scanner cuts every line. -/
theorem cut_scanLine (line column : Nat) (text : Text) :
    Cut line column text (scanLine line column 0 text) := by
  induction text using lexemeInduction generalizing column with
  | nil => exact .nil
  | blank u rest h ih =>
    rw [scanLine_blank h]
    exact .blank (isSpaceOrTab_of_startAt h) (ih _)
  | problem u rest problem h ih =>
    rw [scanLine_problem h]
    obtain ⟨hlexical, hblank⟩ := lexical_of_startAt h
    exact .problem hblank hlexical (ih _)
  -- a token takes its `n` units off the line, and the rest of the line starts behind them
  | token u rest kind n h ih =>
    obtain ⟨hpos, hle, hkind, hstring⟩ := fits_of_startAt h
    have hlength : ((u :: rest).take n).length = n := List.length_take_of_le hle
    have hne : (u :: rest).take n ≠ [] := by
      rw [← List.length_pos_iff, hlength]
      exact hpos
    have hrest : Cut line (column + ((u :: rest).take n).length) ((u :: rest).drop n)
        (scanLine line (column + n) 0 ((u :: rest).drop n)) := by
      rw [hlength]
      exact ih _
    have hcut := Cut.token hne hkind hstring hrest
    rwa [List.take_append_drop, hlength, ← scanLine_token h] at hcut

/-- The stretch of source that an item accounts for. A problem accounts for one unit. -/
def extent : Except Diagnostic Token → Span
  | .ok t => t.span
  | .error d => ⟨d.position, ⟨d.position.line, d.position.column + 1⟩⟩

/-- A token that lies in a text, which starts at the given line and column. -/
structure LiesIn (t : Token) (line column : Nat) (text : Text) : Prop where
  slice : t.IsSliceOf line column text
  nonempty : t.text ≠ []
  kind_ne : t.kind ≠ .endOfInput
  string : ∀ value, t.kind = .string value → t.text = quote :: value ++ [quote]

/-- A problem that was met in a text, which starts at the given line and column. -/
structure MetIn (d : Diagnostic) (line column : Nat) (text : Text) : Prop where
  lexical : d.problem.kind = .lexical
  placed : ∃ j < text.length, d.position = ⟨line, column + j⟩

/-- An item of a text, which starts at the given line and column. -/
def Lies (line column : Nat) (text : Text) : Except Diagnostic Token → Prop
  | .ok t => t.LiesIn line column text
  | .error d => MetIn d line column text

/-- What lies in the rest of a text lies in the text. -/
theorem Lies.append (front : Text) (h : Lies line (column + front.length) rest i) :
    Lies line column (front ++ rest) i := by
  cases i with
  | ok t =>
    obtain ⟨⟨before, after, rfl, hspan⟩, hne, hkind, hstring⟩ := h
    refine ⟨⟨front ++ before, after, by simp only [List.append_assoc], ?_⟩, hne, hkind, hstring⟩
    rw [hspan, List.length_append, ← Nat.add_assoc]
  | error d =>
    obtain ⟨hlexical, j, hj, hposition⟩ := h
    refine ⟨hlexical, front.length + j, ?_, ?_⟩
    · rw [List.length_append]
      omega
    · rw [hposition, Nat.add_assoc]

/-- Everything that a line is cut into lies on it. -/
theorem Cut.lies (h : Cut line column text items) : ∀ i ∈ items, Lies line column text i := by
  induction h with
  | nil => exact fun i hi => absurd hi List.not_mem_nil
  | @blank column u rest items hblank hcut ih => exact fun i hi => (ih i hi).append [u]
  | @token column kind text rest items hne hkind hstring hcut ih =>
    intro i hi
    rcases List.mem_cons.mp hi with rfl | hi
    · exact ⟨⟨[], rest, rfl, rfl⟩, hne, hkind, hstring⟩
    · exact (ih i hi).append text
  | @problem column u rest problem items hblank hlexical hcut ih =>
    intro i hi
    rcases List.mem_cons.mp hi with rfl | hi
    · exact ⟨hlexical, 0, Nat.succ_pos _, rfl⟩
    · exact (ih i hi).append [u]

/-- An item does not leave its text. -/
theorem Lies.bounds (h : Lies line column text i) :
    ⟨line, column⟩ ≤ (extent i).start ∧ (extent i).start < (extent i).stop
      ∧ (extent i).stop ≤ ⟨line, column + text.length⟩ := by
  cases i with
  | ok t =>
    obtain ⟨⟨before, after, rfl, hspan⟩, hne, -, -⟩ := h
    have hpos := List.length_pos_iff.mpr hne
    simp only [extent, hspan, Position.mk_le_mk, Position.mk_lt_mk, List.length_append]
    omega
  | error d =>
    obtain ⟨-, j, hj, hposition⟩ := h
    simp only [extent, hposition, Position.mk_le_mk, Position.mk_lt_mk]
    omega

/-! ## Items one behind the other -/

/-- The item `j` comes behind the item `i`, which it does not overlap. -/
def Follows (i j : Except Diagnostic Token) : Prop :=
  (extent i).start < (extent j).start ∧ (extent i).stop ≤ (extent j).start

/-- An item that ends where a text starts is followed by what lies in the text. -/
theorem Lies.follows {j : Except Diagnostic Token} (hj : Lies line column text j)
    (hi : (extent i).start < (extent i).stop) (hstop : (extent i).stop ≤ ⟨line, column⟩) :
    Follows i j :=
  have hle := hstop.trans hj.bounds.1
  ⟨hi.trans_le hle, hle⟩

/-- What a line is cut into lies in order. -/
theorem Cut.pairwise (h : Cut line column text items) : items.Pairwise Follows := by
  induction h with
  | nil => exact .nil
  | blank hblank hcut ih => exact ih
  | token hne hkind hstring hcut ih =>
    refine .cons (fun j hj => (hcut.lies j hj).follows ?_ le_rfl) ih
    have hpos := List.length_pos_iff.mpr hne
    simp only [extent, Position.mk_lt_mk]
    omega
  | problem hblank hlexical hcut ih =>
    refine .cons (fun j hj => (hcut.lies j hj).follows ?_ le_rfl) ih
    simp only [extent, Position.mk_lt_mk]
    omega

/-- What the lines are cut into lies in order. -/
theorem pairwise_scanEach (line : Nat) (lines : List Text) :
    (scanEach line lines).Pairwise Follows := by
  induction lines generalizing line with
  | nil => exact .nil
  | cons first rest ih =>
    refine List.pairwise_append.mpr ⟨(cut_scanLine line 1 first).pairwise, ih _, ?_⟩
    intro i hi j hj
    obtain ⟨k, text, -, hj⟩ := mem_scanEach hj
    obtain ⟨-, hlt, hstop⟩ := ((cut_scanLine line 1 first).lies i hi).bounds
    refine ((cut_scanLine _ 1 text).lies j hj).follows hlt (hstop.trans ?_)
    exact .inl (show line < line + 1 + k by omega)

/-! ## Items at a place -/

/-- The items that account for a place. -/
def itemsAt (p : Position) (items : List (Except Diagnostic Token)) :
    List (Except Diagnostic Token) :=
  items.filter fun i => (extent i).covers p

/-- A span covers the positions from its start up to its end. -/
theorem covers_eq_true {s : Span} : s.covers p = true ↔ s.start ≤ p ∧ p < s.stop := by
  simp [Span.covers]

/-- Nothing that starts later covers a position. -/
theorem itemsAt_eq_nil_of_lt (h : ∀ i ∈ items, p < (extent i).start) : itemsAt p items = [] := by
  refine List.filter_eq_nil_iff.mpr fun i hi hcovers => ?_
  exact (covers_eq_true.mp hcovers).1.not_gt (h i hi)

/-- Nothing that has ended covers a position. -/
theorem itemsAt_eq_nil_of_le (h : ∀ i ∈ items, (extent i).stop ≤ p) : itemsAt p items = [] := by
  refine List.filter_eq_nil_iff.mpr fun i hi hcovers => ?_
  exact (covers_eq_true.mp hcovers).2.not_ge (h i hi)

/-- Items that lie in a text are not met before it. -/
theorem itemsAt_before (h : ∀ i ∈ items, Lies line column text i) (hp : p < ⟨line, column⟩) :
    itemsAt p items = [] :=
  itemsAt_eq_nil_of_lt fun i hi => hp.trans_le (h i hi).bounds.1

/-- Items that lie in a text are not met behind it. -/
theorem itemsAt_behind (h : ∀ i ∈ items, Lies line column text i)
    (hp : ⟨line, column + text.length⟩ ≤ p) : itemsAt p items = [] :=
  itemsAt_eq_nil_of_le fun i hi => (h i hi).bounds.2.2.trans hp

/-- The items account for a unit at a place. -/
def AccountedBy (u : CodeUnit) (p : Position) (items : List (Except Diagnostic Token)) : Prop :=
  Accounted u ((itemsAt p items).filterMap Except.toOption) ((itemsAt p items).filterMap problem?)

/-- An item over the place, with nothing there behind it, is all that accounts for the place. -/
theorem itemsAt_cons (hi : (extent i).covers p = true) (hitems : itemsAt p items = []) :
    itemsAt p (i :: items) = [i] := by
  rw [itemsAt, List.filter_cons, if_pos hi]
  exact congrArg (i :: ·) hitems

/-- What has ended before accounts for nothing. -/
theorem AccountedBy.cons (h : AccountedBy u p items) (hi : (extent i).stop ≤ p) :
    AccountedBy u p (i :: items) := by
  have hnot : (extent i).covers p ≠ true := fun hcovers => (covers_eq_true.mp hcovers).2.not_ge hi
  rwa [AccountedBy, itemsAt, List.filter_cons, if_neg hnot]

/-- Every unit of a line is blank, in one token, or in one error. -/
theorem Cut.accounted (h : Cut line column text items) {j : Nat} (hu : text[j]? = some u) :
    AccountedBy u ⟨line, column + j⟩ items := by
  induction h generalizing j with
  | nil => cases hu
  | blank hblank hcut ih =>
    cases j with
    | zero =>
      obtain rfl := Option.some.inj hu
      rw [AccountedBy, itemsAt_before hcut.lies (by simp)]
      exact .blank hblank
    | succ j =>
      rw [← Nat.add_assoc, Nat.add_right_comm]
      exact ih hu
  | @token column kind text rest items hne hkind hstring hcut ih =>
    -- the unit is in the token, or behind it
    rcases Nat.lt_or_ge j text.length with hj | hj
    · rw [AccountedBy, itemsAt_cons (covers_eq_true.mpr (by simpa [extent] using hj))
        (itemsAt_before hcut.lies (by simpa using hj))]
      exact .token _
    · obtain ⟨k, rfl⟩ := Nat.exists_eq_add_of_le hj
      rw [List.getElem?_append_right hj, Nat.add_sub_cancel_left] at hu
      rw [← Nat.add_assoc]
      exact (ih hu).cons (by simp [extent])
  | problem hblank hlexical hcut ih =>
    cases j with
    | zero =>
      obtain rfl := Option.some.inj hu
      rw [AccountedBy, itemsAt_cons (covers_eq_true.mpr (by simp [extent]))
        (itemsAt_before hcut.lies (by simp))]
      exact .problem _ hblank
    | succ j =>
      rw [← Nat.add_assoc, Nat.add_right_comm]
      exact (ih hu).cons (by simp [extent])

theorem itemsAt_append (p : Position) (first second : List (Except Diagnostic Token)) :
    itemsAt p (first ++ second) = itemsAt p first ++ itemsAt p second :=
  List.filter_append first second

/-- Every unit of every line is accounted for by what the lines are cut into. -/
theorem accounted_scanEach {lines : List Text} {k j : Nat} (htext : lines[k]? = some text)
    (hu : text[j]? = some u) : AccountedBy u ⟨line + k, 1 + j⟩ (scanEach line lines) := by
  induction lines generalizing line k with
  | nil => cases htext
  | cons first rest ih =>
    cases k with
    | zero =>
      obtain rfl := Option.some.inj htext
      -- the later lines start behind the place
      have hrest : itemsAt ⟨line, 1 + j⟩ (scanEach (line + 1) rest) = [] := by
        refine itemsAt_eq_nil_of_lt fun i hi => ?_
        obtain ⟨k, text, -, hi⟩ := mem_scanEach hi
        refine lt_of_lt_of_le ?_ ((cut_scanLine _ 1 text).lies i hi).bounds.1
        exact .inl (show line < line + 1 + k by omega)
      have haccounted := (cut_scanLine line 1 first).accounted hu
      rw [AccountedBy, scanEach, itemsAt_append, Nat.add_zero, hrest, List.append_nil]
      exact haccounted
    | succ k =>
      have hfirst : itemsAt ⟨line + (k + 1), 1 + j⟩ (scanLine line 1 0 first) = [] :=
        itemsAt_behind (cut_scanLine line 1 first).lies
          (.inl (show line < line + (k + 1) by omega))
      have haccounted : AccountedBy u ⟨line + 1 + k, 1 + j⟩ (scanEach (line + 1) rest) := ih htext
      rw [Nat.add_assoc, Nat.add_comm 1 k] at haccounted
      rw [AccountedBy, scanEach, itemsAt_append, hfirst, List.nil_append]
      exact haccounted

/-! ## The scan of a source -/

/-- Everything that the lines are cut into lies on one of them. -/
theorem lies_scanEach {lines : List Text} (h : i ∈ scanEach 1 lines) :
    ∃ k text, lines[k]? = some text ∧ Lies (k + 1) 1 text i := by
  obtain ⟨k, text, htext, hi⟩ := mem_scanEach h
  refine ⟨k, text, htext, ?_⟩
  rw [Nat.add_comm k]
  exact (cut_scanLine _ 1 text).lies i hi

/-- The tokens at a position are those of the items at it. -/
theorem filter_toOption (p : Position) (items : List (Except Diagnostic Token)) :
    (items.filterMap Except.toOption).filter (·.span.covers p)
      = (itemsAt p items).filterMap Except.toOption := by
  rw [itemsAt, List.filterMap_filter, List.filter_filterMap]
  refine congrArg (List.filterMap · items) (funext fun i => ?_)
  cases i with
  | error d => simp [Except.toOption]
  | ok t => rfl

/-- A problem accounts for the unit at its place and no other. -/
theorem filter_problem? (p : Position) (items : List (Except Diagnostic Token)) :
    (items.filterMap problem?).filter (·.position = p) = (itemsAt p items).filterMap problem? := by
  have hcovers : ∀ d, (extent (.error d)).covers p = decide (d.position = p) := by
    intro d
    obtain ⟨problem, ⟨line, column⟩⟩ := d
    obtain ⟨line', column'⟩ := p
    rw [Bool.eq_iff_iff, covers_eq_true, decide_eq_true_eq, Position.mk.injEq]
    simp only [extent, Position.le_iff, Position.lt_iff]
    omega
  rw [itemsAt, List.filterMap_filter, List.filter_filterMap]
  refine congrArg (List.filterMap · items) (funext fun i => ?_)
  cases i with
  | error d => simp [problem?, hcovers, Option.filter]
  | ok t => simp [problem?]

/-- No line ends behind the last one. -/
theorem end_le_end {lines : List Text} {k : Nat} {last : Text} (htext : lines[k]? = some text)
    (hlast : lines.getLast? = some last) :
    (⟨k + 1, 1 + text.length⟩ : Position) ≤ ⟨lines.length, last.length + 1⟩ := by
  have hk : k < lines.length := (List.getElem?_eq_some_iff.mp htext).1
  rcases Nat.lt_or_eq_of_le hk with hlt | heq
  · exact .inl hlt
  · rw [List.getLast?_eq_getElem?, ← heq, Nat.succ_sub_one, htext] at hlast
    obtain rfl := Option.some.inj hlast
    rw [← heq, Nat.add_comm 1]

section Source

variable {source last : Text} {t : Token} (hlast : source.lines.getLast? = some last)
include hlast

/-- A token of a source lies in a line, or is the end of input. -/
theorem mem_tokens_tokenize (h : t ∈ (tokenize source).tokens) :
    (∃ k text, source.lines[k]? = some text ∧ t.LiesIn (k + 1) 1 text)
      ∨ t = endAt ⟨source.lines.length, last.length + 1⟩ := by
  rw [tokens_tokenize hlast, List.mem_append, mem_filterMap_toOption, List.mem_singleton] at h
  exact h.imp_left lies_scanEach

/-- The end of input is the empty slice behind the last line. -/
theorem isSliceOf_endAt :
    ∃ k text, source.lines[k]? = some text
      ∧ (endAt ⟨source.lines.length, last.length + 1⟩).IsSliceOf (k + 1) 1 text := by
  have hpos := List.length_pos_iff.mpr (lines_ne_nil source)
  refine ⟨source.lines.length - 1, last, ?_, last, [], ?_, ?_⟩
  · rw [← hlast, List.getLast?_eq_getElem?]
  · simp [endAt]
  · rw [Nat.sub_add_cancel hpos, Nat.add_comm 1]
    rfl

/-- The tokens lie in order and do not overlap. -/
theorem pairwise_tokens_tokenize :
    (tokenize source).tokens.Pairwise fun s t =>
      s.span.start < t.span.start ∧ s.span.stop ≤ t.span.start := by
  rw [tokens_tokenize hlast]
  refine List.pairwise_append.mpr ⟨?_, List.pairwise_singleton _ _, ?_⟩
  -- among what was scanned, errors left out
  · refine (pairwise_scanEach 1 source.lines).filterMap _ ?_
    intro i j hfollows s hs t ht
    cases i with
    | error d => cases hs
    | ok s' =>
      cases j with
      | error d => cases ht
      | ok t' =>
        cases hs
        cases ht
        exact hfollows
  -- the end of input stands behind every line
  · intro s hs t ht
    obtain rfl := List.mem_singleton.mp ht
    obtain ⟨k, text, htext, hlies⟩ := lies_scanEach (mem_filterMap_toOption.mp hs)
    obtain ⟨-, hlt, hstop⟩ := hlies.bounds
    have hle := hstop.trans (end_le_end htext hlast)
    exact ⟨hlt.trans_le hle, hle⟩

/-- The end of input is the last token, and only that. -/
theorem terminated_tokenize : Terminated (tokenize source).tokens := by
  rw [tokens_tokenize hlast]
  refine ⟨⟨_, _, rfl, rfl⟩, ?_⟩
  rw [kinds_append, List.count_append, List.count_eq_zero.mpr]
  · rfl
  · intro hmem
    obtain ⟨t, ht, hkind⟩ := List.mem_map.mp hmem
    obtain ⟨k, text, -, hlies⟩ := lies_scanEach (mem_filterMap_toOption.mp ht)
    exact hlies.kind_ne hkind

/-- The end of input covers nothing, so the tokens at a position are those that were scanned. -/
theorem tokensAt_tokenize (p : Position) :
    (tokenize source).tokensAt p
      = (itemsAt p (scanEach 1 source.lines)).filterMap Except.toOption := by
  rw [Scanned.tokensAt, tokens_tokenize hlast, List.filter_append, filter_toOption]
  -- the end of input is over no place
  have hend : (endAt ⟨source.lines.length, last.length + 1⟩).span.covers p ≠ true := by
    intro hcovers
    obtain ⟨hstart, hstop⟩ := covers_eq_true.mp hcovers
    exact hstart.not_gt hstop
  rw [List.filter_cons, if_neg hend, List.filter_nil, List.append_nil]

end Source

/-- The text of a token stands where its span says in a line of the source. -/
theorem exists_isSliceOf {source : Text} {t : Token} (h : t ∈ (tokenize source).tokens) :
    ∃ k text, source.lines[k]? = some text ∧ t.IsSliceOf (k + 1) 1 text := by
  obtain ⟨last, hlast⟩ := exists_last_line source
  rcases mem_tokens_tokenize hlast h with ⟨k, text, htext, hlies⟩ | rfl
  · exact ⟨k, text, htext, hlies.slice⟩
  · exact isSliceOf_endAt hlast

/-- No token ends before it starts. -/
theorem start_le_stop {source : Text} {t : Token} (h : t ∈ (tokenize source).tokens) :
    t.span.start ≤ t.span.stop := by
  obtain ⟨k, text, -, before, after, -, hspan⟩ := exists_isSliceOf h
  rw [hspan, Position.mk_le_mk]
  exact Nat.le_add_right _ _

/-- Only the end of input is empty. -/
theorem start_lt_stop {source : Text} {t : Token} (h : t ∈ (tokenize source).tokens)
    (hkind : t.kind ≠ .endOfInput) : t.span.start < t.span.stop := by
  obtain ⟨last, hlast⟩ := exists_last_line source
  rcases mem_tokens_tokenize hlast h with ⟨k, text, -, hlies⟩ | rfl
  · have hbounds : Lies (k + 1) 1 text (.ok t) := hlies
    exact hbounds.bounds.2.1
  · exact absurd rfl hkind

section Order

variable {source : Text} {s t : Token} {i j : Nat}
  (hs : (tokenize source).tokens[i]? = some s) (ht : (tokenize source).tokens[j]? = some t)
include hs ht

/-- A token that comes later in the list stands behind in the source. -/
theorem follows_of_lt (hij : i < j) :
    s.span.start < t.span.start ∧ s.span.stop ≤ t.span.start := by
  obtain ⟨last, hlast⟩ := exists_last_line source
  have hpairwise := List.pairwise_iff_getElem.mp (pairwise_tokens_tokenize hlast)
  obtain ⟨hi, rfl⟩ := List.getElem?_eq_some_iff.mp hs
  obtain ⟨hj, rfl⟩ := List.getElem?_eq_some_iff.mp ht
  exact hpairwise i j hi hj hij

theorem start_le_start (hij : i ≤ j) : s.span.start ≤ t.span.start := by
  rcases Nat.lt_or_eq_of_le hij with hlt | rfl
  · exact (follows_of_lt hs ht hlt).1.le
  · rw [Option.some.inj (hs.symm.trans ht)]

theorem stop_le_stop (hij : i ≤ j) : s.span.stop ≤ t.span.stop := by
  rcases Nat.lt_or_eq_of_le hij with hlt | rfl
  · exact (follows_of_lt hs ht hlt).2.trans (start_le_stop (List.mem_of_getElem? ht))
  · rw [Option.some.inj (hs.symm.trans ht)]

end Order

/-- The errors lie in order, no two at one position. -/
theorem pairwise_errors_tokenize (source : Text) :
    (tokenize source).errors.Pairwise fun d e => d.position < e.position := by
  rw [errors_tokenize]
  refine (pairwise_scanEach 1 source.lines).filterMap _ ?_
  intro i j hfollows d hd e he
  cases i with
  | ok t => cases hd
  | error d' =>
    cases j with
    | ok t => cases he
    | error e' =>
      cases hd
      cases he
      exact hfollows.1

/-- Every error is met on one of the lines. -/
theorem mem_errors_tokenize {source : Text} {d : Diagnostic} (h : d ∈ (tokenize source).errors) :
    ∃ k text, source.lines[k]? = some text ∧ MetIn d (k + 1) 1 text := by
  rw [errors_tokenize, mem_filterMap_problem?] at h
  exact lies_scanEach h

end Token

open Token in
/-- The scanner accounts for every unit of every source. -/
theorem tokenize_lossless (source : Text) :
    SplitsInto source source.lines ∧ (tokenize source).Lossless source.lines := by
  refine ⟨splitsInto_lines source, ?_⟩
  obtain ⟨last, hlast⟩ := exists_last_line source
  constructor
  -- the fields speak of what was scanned on each line, and of the end of input where they speak of
  -- all tokens
  case accounted =>
    intro i text htext j u hu
    have haccounted : AccountedBy u ⟨1 + i, 1 + j⟩ (scanEach 1 source.lines) :=
      accounted_scanEach htext hu
    rw [tokensAt_tokenize hlast, Scanned.errorsAt, errors_tokenize, filter_problem?,
      Nat.add_comm i, Nat.add_comm j]
    exact haccounted
  case slices =>
    intro t ht
    rcases mem_tokens_tokenize hlast ht with ⟨k, text, htext, hlies⟩ | rfl
    · exact ⟨k, text, htext, hlies.slice⟩
    · exact isSliceOf_endAt hlast
  case nonempty =>
    intro t ht hkind
    rcases mem_tokens_tokenize hlast ht with ⟨k, text, -, hlies⟩ | rfl
    · exact hlies.nonempty
    · exact absurd rfl hkind
  case strings =>
    intro t ht value hvalue
    rcases mem_tokens_tokenize hlast ht with ⟨k, text, -, hlies⟩ | rfl
    · exact hlies.string value hvalue
    · cases hvalue
  case tokensOrdered => exact pairwise_tokens_tokenize hlast
  case errorsOrdered => exact pairwise_errors_tokenize source
  case lexical =>
    intro d hd
    obtain ⟨k, text, -, hmet⟩ := mem_errors_tokenize hd
    exact hmet.lexical
  case placed =>
    intro d hd
    obtain ⟨k, text, htext, -, j, hj, hposition⟩ := mem_errors_tokenize hd
    exact ⟨k, text, htext, j, hj, by rw [hposition, Nat.add_comm 1]⟩
  case terminated => exact terminated_tokenize hlast
  case stop =>
    intro t ht hkind
    rcases mem_tokens_tokenize hlast ht with ⟨k, text, -, hlies⟩ | rfl
    · exact absurd hkind hlies.kind_ne
    · exact ⟨last, hlast, rfl, rfl⟩

end Plume
