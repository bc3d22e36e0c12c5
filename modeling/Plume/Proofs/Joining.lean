import Plume.Proofs.Grafting
import Plume.Proofs.Scanning
import Plume.Script

/-!
# Joining two scripts

Two scripts with a `;` between them are one script. Its tokens are those of the two with the `;`
between them: no token of the first goes on across the seam, and what the second is on its own it is
behind the `;` too, where only its places are others. The statements of the second are then grafted
onto those of the first.
-/

namespace Plume

/-! ## Lines -/

/-- Where the second of two texts does not begin with LF, the last line of the first goes on with
the first line of the second. -/
theorem exists_lines_append {more first : Text} {rest : List Text}
    (hmore : more.head? ≠ some CodeUnit.lineFeed) (hfirst : more.lines = first :: rest)
    (text : Text) :
    ∃ init last, text.lines = init ++ [last]
      ∧ (text ++ more).lines = init ++ (last ++ first) :: rest := by
  induction text with
  | nil => exact ⟨[], [], rfl, hfirst⟩
  | cons u text ih =>
    obtain ⟨init, last, hlines, happend⟩ := ih
    -- only the first unit of `more` could make a line end of what is before it
    have hhead : ((text ++ more).head? == some CodeUnit.lineFeed)
        = (text.head? == some CodeUnit.lineFeed) := by
      cases text with
      | nil => exact beq_eq_false_iff_ne.mpr hmore
      | cons v text => rfl
    rw [List.cons_append, Text.lines, Text.lines, hhead, happend, hlines]
    -- the unit ends a line, belongs to the end of one, or stands on the first line
    split
    · exact ⟨[] :: init, last, rfl, rfl⟩
    · split
      · exact ⟨init, last, rfl, rfl⟩
      · cases init with
        | nil => exact ⟨[], u :: last, rfl, rfl⟩
        | cons line init => exact ⟨(u :: line) :: init, last, rfl, rfl⟩

namespace Token

/-! ## Places do not matter -/

variable {ks ks' : List TokenKind} {items : List (Except Diagnostic Token)}

/-- An item without its place. -/
def withoutPlace : Except Diagnostic Token → Except Problem TokenKind
  | .ok t => .ok t.kind
  | .error d => .error d.problem

/-- What a line consists of does not depend on where it stands. -/
theorem scanLine_withoutPlace (line column line' column' skip : Nat) (text : Text) :
    (scanLine line column skip text).map withoutPlace
      = (scanLine line' column' skip text).map withoutPlace := by
  induction text generalizing column column' skip with
  | nil => rfl
  | cons u rest ih =>
    cases skip with
    | succ n => exact ih _ _ n
    | zero =>
      rw [scanLine, scanLine]
      cases startAt u rest with
      | blank => exact ih _ _ 0
      | token kind n => exact congrArg (.ok kind :: ·) (ih _ _ (n - 1))
      | problem problem => exact congrArg (.error problem :: ·) (ih _ _ 0)

/-- Apart from its place, what is scanned does not depend on the line it is on. -/
theorem scanEach_withoutPlace (line line' : Nat) (lines : List Text) :
    (scanEach line lines).map withoutPlace = (scanEach line' lines).map withoutPlace := by
  induction lines generalizing line line' with
  | nil => rfl
  | cons first rest ih =>
    rw [scanEach, scanEach, List.map_append, List.map_append, scanLine_withoutPlace, ih]

theorem scanEach_append (line : Nat) (first second : List Text) :
    scanEach line (first ++ second)
      = scanEach line first ++ scanEach (line + first.length) second := by
  induction first generalizing line with
  | nil => rfl
  | cons text rest ih =>
    rw [List.cons_append, scanEach, scanEach, ih, List.append_assoc, List.length_cons,
      Nat.add_right_comm, Nat.add_assoc]

/-- There are no problems among items of which only kinds are left without their places. -/
theorem map_withoutPlace_eq_iff :
    items.map withoutPlace = ks.map .ok
      ↔ items.filterMap problem? = [] ∧ kinds (items.filterMap Except.toOption) = ks := by
  induction items generalizing ks with
  | nil => cases ks <;> simp
  | cons i items ih =>
    cases i with
    | error d => cases ks <;> simp [withoutPlace, problem?]
    | ok t =>
      cases ks with
      | nil => simp [withoutPlace, problem?, Except.toOption]
      | cons k ks =>
        simp [withoutPlace, problem?, Except.toOption, ih, and_left_comm]

end Token

/-! ## Tokens -/

open Token

/-- A source has no problems, and consists of tokens of the given kinds. -/
def Spells (source : Text) (ks : List TokenKind) : Prop :=
  (tokenize source).errors = [] ∧ kinds (tokenize source).tokens = ks ++ [.endOfInput]

variable {a b source : Text} {ks ks' : List TokenKind}

/-- A text spells tokens if they are what is scanned, apart from their places. -/
theorem spells_iff :
    Spells source ks ↔ (scanEach 1 source.lines).map withoutPlace = ks.map .ok := by
  obtain ⟨last, hlast⟩ := exists_last_line source
  rw [map_withoutPlace_eq_iff, Spells, errors_tokenize, tokens_tokenize hlast, kinds_append]
  exact and_congr_right fun _ => List.append_left_inj [TokenKind.endOfInput]

/-- A text without lexical errors spells tokens. -/
theorem exists_spells (h : (tokenize source).errors = []) : ∃ ks, Spells source ks := by
  rw [errors_tokenize] at h
  exact ⟨_, spells_iff.mpr (map_withoutPlace_eq_iff.mpr ⟨h, rfl⟩)⟩

theorem startAt_semicolon (rest : Text) : startAt 0x3B rest = .token .semicolon 1 := rfl

/-- No token goes on across a `;`. -/
theorem Spells.join (ha : Spells a ks) (hb : Spells b ks') :
    Spells (a ++ 0x3B :: b) (ks ++ .semicolon :: ks') := by
  rw [spells_iff] at ha hb ⊢
  obtain ⟨first, rest, hfirst⟩ := List.exists_cons_of_ne_nil (lines_ne_nil b)
  have hhead : (0x3B :: b).head? ≠ some CodeUnit.lineFeed :=
    fun h => absurd (Option.some.inj h) (by decide)
  have hmore : Text.lines (0x3B :: b) = (0x3B :: first) :: rest := by
    rw [Text.lines, hfirst]
    rfl
  obtain ⟨init, last, hlines, hjoined⟩ := exists_lines_append hhead hmore a
  rw [hlines, scanEach_append, scanEach, scanEach, List.append_nil] at ha
  rw [hfirst, scanEach, List.map_append] at hb
  have hclean : ∀ d, .error d ∉ scanLine (1 + init.length) 1 0 last := by
    intro d hd
    have hmem := List.mem_map_of_mem (f := withoutPlace)
      (List.mem_append_right (scanEach 1 init) hd)
    rw [ha] at hmem
    simp [withoutPlace] at hmem
  -- behind the `;` the second script has other places, and the same kinds
  have hbehind : ∀ line column line', (scanLine line column 0 first).map withoutPlace
      ++ (scanEach line' rest).map withoutPlace = ks'.map .ok := by
    intro line column line'
    rw [← hb, scanLine_withoutPlace line column 1 1, scanEach_withoutPlace line' (1 + 1)]
  rw [hjoined, scanEach_append, scanEach, scanLine_append rfl _ hclean,
    scanLine_token (startAt_semicolon first), List.append_assoc, ← List.append_assoc,
    List.map_append, ha, List.cons_append, List.map_cons, List.map_append, List.drop_one,
    List.tail_cons, hbehind, List.map_append, List.map_cons]
  rfl

/-! ## Scripts -/

/-- A script is parsed if it has no lexical errors and its tokens are parsed. -/
theorem Script.parse_eq_ok_iff {p : Program} :
    Script.parse source = .ok p
      ↔ (tokenize source).errors = [] ∧ Plume.parse (tokenize source).tokens = .ok p := by
  rw [Script.parse]
  cases (tokenize source).errors with
  | nil => simp
  | cons d errors => simp

/-- Two scripts with a `;` between them are one script, in which the statements of the second are
grafted onto those of the first. -/
theorem Script.parse_graft {p q : Program} (ha : Script.parse a = .ok p)
    (hb : Script.parse b = .ok q) :
    ∃ joined, Script.parse (a ++ (";" : Text) ++ b) = .ok joined
      ∧ joined.statements.map Tree.bare
        = (Tree.graftAll p.statements q.statements).map Tree.bare := by
  obtain ⟨haerrors, hap⟩ := Script.parse_eq_ok_iff.mp ha
  obtain ⟨hberrors, hbq⟩ := Script.parse_eq_ok_iff.mp hb
  obtain ⟨ks, hks⟩ := exists_spells haerrors
  obtain ⟨ks', hks'⟩ := exists_spells hberrors
  obtain ⟨herrors, hkinds⟩ := hks.join hks'
  obtain ⟨body, stop, -, hbody, -⟩ := Parser.exists_last hap
  have hfirst : kinds body = ks := by
    have h := hks.2
    rw [hbody, kinds_append] at h
    exact (List.append_singleton_inj.mp h).1
  rw [hbody] at hap
  -- the joined tokens have the kinds of those of the joined source, if not their places
  have hsemicolon : (Token.ofKind .semicolon).kind = .semicolon := rfl
  obtain ⟨program, hprogram, hstatements⟩ := parse_join hap hbq hsemicolon
  have hsame : kinds (body ++ .ofKind .semicolon :: (tokenize b).tokens)
      = kinds (tokenize (a ++ 0x3B :: b)).tokens := by
    rw [kinds_append, kinds_cons, hfirst, hks'.2, hkinds, List.append_assoc, List.cons_append]
    rfl
  obtain ⟨joined, hjoined, hbare⟩ := exists_parse_of_kinds_eq hsame hprogram
  refine ⟨joined, ?_, (congrArg Program.statements hbare).trans hstatements⟩
  rw [List.append_assoc]
  exact Script.parse_eq_ok_iff.mpr ⟨herrors, hjoined⟩

/-- A loop around a condition whose `else` holds another loop, all of them open at the end. -/
def openBodies : Text := "x=1;for i in range(0,2):if a<b:print(\"if\") else:while a<b:a=1.5"

/-- Two conditions with one `else`, and a list at the end. -/
def nestedConditions : Text := "if b<a:if a<b:print(a) else:print(b);c=[1,2]"

/-- The statements of the two scripts joined, without their places: the condition of the second is
in the innermost loop of the first, behind the assignment there, and the list is in its `else`. -/
def graftedBodies : List Tree :=
  let span := Span.blank
  let oneAndAHalf : Binary64 := .ofDecimal false ⟨15, -1⟩
  let name (t : Text) : Tree := .reference span t
  let less (a b : Text) : Tree := .binary span (.relation .lt) (name a) (name b)
  let int (n : Int) : Tree := .number span (.int n)
  let otherwise : Tree := .block span
    [.print span (name "b"), .assign span ⟨span, "c"⟩ (.list span [int 1, int 2])]
  let grafted : Tree := .ifThen span (less "b" "a")
    (.ifElse span (less "a" "b") (.print span (name "a")) otherwise)
  let loop : Tree := .whileLoop span (less "a" "b")
    (.block span [.assign span ⟨span, "a"⟩ (.number span (.float oneAndAHalf)), grafted])
  [.assign span ⟨span, "x"⟩ (int 1),
    .forRange span ⟨span, "i"⟩ (int 0) (int 2)
      (.ifElse span (less "a" "b") (.print span (.string span "if")) loop)]

/-- Conditions that go into the bodies that a script has left open. -/
theorem Script.parse_graft_openBodies :
    ∃ p q joined, Script.parse openBodies = .ok p ∧ Script.parse nestedConditions = .ok q
      ∧ Script.parse (openBodies ++ (";" : Text) ++ nestedConditions) = .ok joined
      ∧ joined.statements.map Tree.bare
        = (Tree.graftAll p.statements q.statements).map Tree.bare
      ∧ joined.statements.map Tree.bare = graftedBodies := by
  obtain ⟨p, q, hp, hq, hgrafted⟩ : ∃ p q, Script.parse openBodies = .ok p
      ∧ Script.parse nestedConditions = .ok q
      ∧ (Tree.graftAll p.statements q.statements).map Tree.bare
        = graftedBodies := ⟨_, _, rfl, rfl, rfl⟩
  obtain ⟨joined, hjoined, hstatements⟩ := Script.parse_graft hp hq
  exact ⟨p, q, joined, hp, hq, hjoined, hstatements, hstatements.trans hgrafted⟩

end Plume
