import Mathlib.Computability.Language
import Mathlib.Data.List.TakeWhile
import Mathlib.Data.Nat.Digits.Defs
import Plume.Proofs.Scanning

/-!
# The longest lexeme first

The scanner looks at the first unit of what is left of a line and has a rule of its own for each
kind of unit. The lexical grammar knows no such rules. It says which texts are lexemes, and a line
is to be read by taking, again and again, the longest lexeme that the rest of it begins with
(`Munches`). The two are the same: a line is read in one way only, and that is how the scanner reads
it (`munches_iff_scanLine`).

## Shape of the definitions

`lexeme` is the language of all lexemes, put together from `word`, `number`, `string` and `mark`.
`Denotes` gives the kind that each of them stands for.

## Shape of the proof

Two lemmas connect a single step of the scanner with the grammar. What it takes is a lexeme of the
kind that it says (`denotes_of_startAt`). Of every lexeme that it could take it takes at least as
much, and if it takes just that lexeme, then with its kind (`takes_of_denotes`).
-/

namespace Plume.Lexicon

open Computability

variable {p : CodeUnit → Bool} {u : CodeUnit} {t rest : Text} {kind : TokenKind}

/-! ## The lexical grammar -/

/-- The units that have the property `p`, each a text of its own. -/
def unit (p : CodeUnit → Bool) : Language CodeUnit := {t | ∃ u, p u = true ∧ t = [u]}

/-- A letter, and letters and digits behind it. -/
def word : Language CodeUnit := unit CodeUnit.isLetter * (unit CodeUnit.isNameUnit)∗

/-- One or more digits. -/
def digits : Language CodeUnit := unit CodeUnit.isDigit * (unit CodeUnit.isDigit)∗

/-- The point in a number. -/
def point : CodeUnit := 0x2E

/-- Digits, and perhaps a point and digits behind them. -/
def number : Language CodeUnit := digits * (1 + unit (· == point) * digits)

/-- Units that are not quotes, between two quotes. -/
def string : Language CodeUnit :=
  unit (· == Token.quote) * (unit (· != Token.quote))∗ * unit (· == Token.quote)

/-- The operators and the punctuation. -/
def mark : Language CodeUnit := {t | ∃ kind, (t, kind) ∈ TokenKind.marks}

/-- All that can be a token. -/
def lexeme : Language CodeUnit := word + number + string + mark

/-- The number that digits stand for to the base ten, the first one counting most. -/
def decimalValue (ds : Text) : Nat := Nat.ofDigits 10 (ds.reverse.map Text.digitValue)

/-- The kind that a lexeme stands for. -/
inductive Denotes : Text → TokenKind → Prop
  | keyword {t : Text} {kind : TokenKind} : (t, kind) ∈ TokenKind.keywords → Denotes t kind
  | name {t : Text} : t ∈ word → (∀ kind, (t, kind) ∉ TokenKind.keywords) → Denotes t (.name t)
  | int {t : Text} : t ∈ digits → Denotes t (.number (.int (decimalValue t)))
  | float {whole fraction : Text} : whole ∈ digits → fraction ∈ digits →
      Denotes (whole ++ point :: fraction) (.number
        (.float (Binary64.ofDecimal false ⟨decimalValue (whole ++ fraction), -fraction.length⟩)))
  | string {value : Text} : Token.quote ∉ value →
      Denotes (Token.quote :: value ++ [Token.quote]) (.string value)
  | mark {t : Text} {kind : TokenKind} : (t, kind) ∈ TokenKind.marks → Denotes t kind

/-! ## The lexer of a lexical grammar -/

/-- The longest lexeme that a text begins with. -/
structure IsMunch (text t : Text) : Prop where
  isPrefix : t <+: text
  isLexeme : t ∈ lexeme
  longest : ∀ t', t' <+: text → t' ∈ lexeme → t'.length ≤ t.length

/-- The message where no lexeme starts at a unit. -/
def complaint (u : CodeUnit) : Text :=
  if u = Token.quote then "Unterminated string" else "Illegal character '" ++ [u] ++ "'"

/-- The tokens and the problems of a text, which starts at the given line and column. Blanks are
passed over. Elsewhere the longest lexeme is a token, and where there is none, one unit is a
problem. -/
inductive Munches (line : Nat) : Nat → Text → List (Except Diagnostic Token) → Prop
  | nil {column : Nat} : Munches line column [] []
  | blank {column : Nat} {u : CodeUnit} {rest : Text} {items : List (Except Diagnostic Token)} :
      u.isSpaceOrTab = true → Munches line (column + 1) rest items →
        Munches line column (u :: rest) items
  | token {column : Nat} {u : CodeUnit} {rest t : Text} {kind : TokenKind}
      {items : List (Except Diagnostic Token)} :
      u.isSpaceOrTab = false → IsMunch (u :: rest) t → Denotes t kind →
      Munches line (column + t.length) ((u :: rest).drop t.length) items →
        Munches line column (u :: rest)
          (.ok ⟨kind, t, ⟨⟨line, column⟩, ⟨line, column + t.length⟩⟩⟩ :: items)
  | problem {column : Nat} {u : CodeUnit} {rest : Text} {d : Diagnostic}
      {items : List (Except Diagnostic Token)} :
      u.isSpaceOrTab = false → (∀ t, t <+: u :: rest → t ∉ lexeme) →
      d.problem.kind = .lexical → d.message = complaint u → d.position = ⟨line, column⟩ →
      Munches line (column + 1) rest items → Munches line column (u :: rest) (.error d :: items)

/-! ## Texts of the grammar unit by unit -/

/-- A repetition of units of one class. -/
theorem mem_kstar_unit : t ∈ (unit p)∗ ↔ ∀ u ∈ t, p u = true := by
  rw [Language.mem_kstar]
  constructor
  · rintro ⟨pieces, rfl, hpieces⟩ u hu
    obtain ⟨piece, hpiece, hu⟩ := List.mem_flatten.mp hu
    obtain ⟨v, hv, rfl⟩ := hpieces piece hpiece
    rwa [List.mem_singleton.mp hu]
  · intro h
    refine ⟨t.map ([·]), (List.flatMap_singleton' t).symm.trans (List.flatMap_def ..), ?_⟩
    intro piece hpiece
    obtain ⟨u, hu, rfl⟩ := List.mem_map.mp hpiece
    exact ⟨u, h u hu, rfl⟩

/-- A unit of a class, and then the rest. -/
theorem mem_unit_mul {l : Language CodeUnit} :
    t ∈ unit p * l ↔ ∃ u r, t = u :: r ∧ p u = true ∧ r ∈ l := by
  rw [Language.mem_mul]
  constructor
  · rintro ⟨_, ⟨u, hu, rfl⟩, r, hr, rfl⟩
    exact ⟨u, r, rfl, hu, hr⟩
  · rintro ⟨u, r, rfl, hu, hr⟩
    exact ⟨[u], ⟨u, hu, rfl⟩, r, hr, rfl⟩

/-- A word is a letter and then units that a name may hold. -/
theorem mem_word : t ∈ word ↔
    ∃ u r, t = u :: r ∧ u.isLetter = true ∧ ∀ v ∈ r, v.isNameUnit = true := by
  simp only [word, mem_unit_mul, mem_kstar_unit]

theorem mem_digits : t ∈ digits ↔ t ≠ [] ∧ ∀ u ∈ t, u.isDigit = true := by
  simp only [digits, mem_unit_mul, mem_kstar_unit]
  constructor
  · rintro ⟨u, r, rfl, hu, hr⟩
    exact ⟨List.cons_ne_nil u r, List.forall_mem_cons.mpr ⟨hu, hr⟩⟩
  · rintro ⟨hne, h⟩
    obtain ⟨u, r, rfl⟩ := List.exists_cons_of_ne_nil hne
    exact ⟨u, r, rfl, List.forall_mem_cons.mp h⟩

/-- A number is digits, or digits on both sides of a point. -/
theorem mem_number : t ∈ number ↔
    t ∈ digits ∨ ∃ whole ∈ digits, ∃ fraction ∈ digits, t = whole ++ point :: fraction := by
  simp only [number, mul_add, mul_one, Language.mem_add, Language.mem_mul]
  refine or_congr Iff.rfl ?_
  constructor
  · rintro ⟨whole, hwhole, _, ⟨_, ⟨u, hu, rfl⟩, fraction, hfraction, rfl⟩, rfl⟩
    obtain rfl := beq_iff_eq.mp hu
    exact ⟨whole, hwhole, fraction, hfraction, rfl⟩
  · rintro ⟨whole, hwhole, fraction, hfraction, rfl⟩
    exact ⟨whole, hwhole, _, ⟨[point], ⟨point, beq_self_eq_true _, rfl⟩, fraction, hfraction, rfl⟩,
      rfl⟩

/-- A string is anything but quotes between two quotes. -/
theorem mem_string : t ∈ string ↔
    ∃ value, Token.quote ∉ value ∧ t = Token.quote :: value ++ [Token.quote] := by
  have hvalue : ∀ value : Text,
      value ∈ (unit (· != Token.quote))∗ ↔ Token.quote ∉ value := by
    intro value
    rw [mem_kstar_unit]
    constructor
    · intro h hmem
      exact absurd (h _ hmem) (by decide)
    · intro h u hu
      rw [bne_iff_ne]
      rintro rfl
      exact h hu
  rw [string, mul_assoc, mem_unit_mul]
  simp only [Language.mem_mul, hvalue]
  constructor
  · rintro ⟨u, _, rfl, hu, value, hmem, _, ⟨v, hv, rfl⟩, rfl⟩
    obtain rfl := beq_iff_eq.mp hu
    obtain rfl := beq_iff_eq.mp hv
    exact ⟨value, hmem, rfl⟩
  · rintro ⟨value, hmem, rfl⟩
    exact ⟨_, _, rfl, beq_self_eq_true _, value, hmem, _, ⟨_, beq_self_eq_true _, rfl⟩, rfl⟩

/-- The words with a meaning of their own are words. -/
theorem mem_word_of_keyword (h : (t, kind) ∈ TokenKind.keywords) : t ∈ word := by
  have hkeywords : ∀ k ∈ TokenKind.keywords,
      k.1.head?.any CodeUnit.isLetter = true ∧ k.1.tail.all CodeUnit.isNameUnit = true := by
    decide +kernel
  obtain ⟨hletter, htail⟩ := hkeywords _ h
  cases t with
  | nil => cases hletter
  | cons u r => exact mem_word.mpr ⟨u, r, rfl, hletter, List.all_eq_true.mp htail⟩

/-- A word with a meaning of its own is read as that. -/
theorem ofWord_of_keyword (h : (t, kind) ∈ TokenKind.keywords) : TokenKind.ofWord t = kind := by
  have hkeywords : ∀ k ∈ TokenKind.keywords, TokenKind.ofWord k.1 = k.2 := by decide
  exact hkeywords _ h

/-- Any other word is read as a name. -/
theorem ofWord_of_not_keyword (h : ∀ kind, (t, kind) ∉ TokenKind.keywords) :
    TokenKind.ofWord t = .name t := by
  have hlookup : TokenKind.keywords.lookup t = none := by
    rw [List.lookup_eq_none_iff]
    rintro ⟨t', kind⟩ hmem
    rw [bne_iff_ne]
    rintro rfl
    exact h kind hmem
  rw [TokenKind.ofWord, hlookup, Option.getD_none]

/-- A word denotes what it is read as. -/
theorem denotes_ofWord (h : t ∈ word) : Denotes t (.ofWord t) := by
  by_cases hkeyword : ∃ kind, (t, kind) ∈ TokenKind.keywords
  · obtain ⟨kind, hkeyword⟩ := hkeyword
    rw [ofWord_of_keyword hkeyword]
    exact .keyword hkeyword
  · have hnot : ∀ kind, (t, kind) ∉ TokenKind.keywords := fun kind h => hkeyword ⟨kind, h⟩
    rw [ofWord_of_not_keyword hnot]
    exact .name h hnot

/-- The lexemes are the texts that stand for some kind. -/
theorem mem_lexeme : t ∈ lexeme ↔ ∃ kind, Denotes t kind := by
  simp only [lexeme, Language.mem_add]
  constructor
  · rintro (((hword | hnumber) | hstring) | ⟨kind, hmark⟩)
    · exact ⟨_, denotes_ofWord hword⟩
    · obtain hdigits | ⟨whole, hwhole, fraction, hfraction, rfl⟩ := mem_number.mp hnumber
      · exact ⟨_, .int hdigits⟩
      · exact ⟨_, .float hwhole hfraction⟩
    · obtain ⟨value, hvalue, rfl⟩ := mem_string.mp hstring
      exact ⟨_, .string hvalue⟩
    · exact ⟨kind, .mark hmark⟩
  · rintro ⟨kind, h⟩
    cases h with
    | keyword h => exact .inl (.inl (.inl (mem_word_of_keyword h)))
    | name h _ => exact .inl (.inl (.inl h))
    | int h => exact .inl (.inl (.inr (mem_number.mpr (.inl h))))
    | float hwhole hfraction =>
      exact .inl (.inl (.inr (mem_number.mpr (.inr ⟨_, hwhole, _, hfraction, rfl⟩))))
    | string h => exact .inl (.inr (mem_string.mpr ⟨_, h, rfl⟩))
    | mark h => exact .inr ⟨_, h⟩

/-- The value of digits, read from the last digit on and from the first on. -/
theorem decimalValue_eq (ds : Text) : decimalValue ds = Text.digitsValue ds := by
  rw [decimalValue, Nat.ofDigits_eq_foldr, List.foldr_map, List.foldr_reverse, Text.digitsValue]
  congr 1
  funext value d
  rw [Nat.cast_id, Nat.add_comm]

/-! ## What the scanner takes is a lexeme -/

/-- A number without a fraction is its digits. One with a fraction goes on behind the point. -/
theorem startNumber_cases (text : Text) :
    (Token.startNumber text = .token
        (.number (.ofDigits (text.takeWhile CodeUnit.isDigit) none))
        (text.takeWhile CodeUnit.isDigit).length)
      ∨ ∃ after, text.drop (text.takeWhile CodeUnit.isDigit).length = point :: after
        ∧ after.takeWhile CodeUnit.isDigit ≠ []
        ∧ Token.startNumber text = .token
            (.number (.ofDigits (text.takeWhile CodeUnit.isDigit)
              (some (after.takeWhile CodeUnit.isDigit))))
            ((text.takeWhile CodeUnit.isDigit).length + 1
              + (after.takeWhile CodeUnit.isDigit).length) := by
  cases hdrop : text.drop (text.takeWhile CodeUnit.isDigit).length with
  | nil => exact .inl (by simp only [Token.startNumber, hdrop])
  | cons v after =>
    -- a point counts only if a digit follows
    by_cases hpoint : v = point ∧ after.takeWhile CodeUnit.isDigit ≠ []
    · obtain ⟨rfl, hne⟩ := hpoint
      have hcond : (point == 0x2E && !(after.takeWhile CodeUnit.isDigit).isEmpty) = true := by
        simp [point, hne]
      exact .inr ⟨after, rfl, hne, by simp only [Token.startNumber, hdrop, hcond, if_true]⟩
    · have hcond : (v == 0x2E && !(after.takeWhile CodeUnit.isDigit).isEmpty) = false := by
        rw [Bool.and_eq_false_iff]
        by_cases hv : v = point
        · right
          have hnil : after.takeWhile CodeUnit.isDigit = [] := by
            by_contra hne
            exact hpoint ⟨hv, hne⟩
          rw [hnil]
          rfl
        · left
          exact beq_eq_false_iff_ne.mpr hv
      exact .inl (by simp only [Token.startNumber, hdrop, hcond, Bool.false_eq_true, if_false])

theorem takeWhile_mem_digits {text : Text} (hne : text.takeWhile CodeUnit.isDigit ≠ []) :
    text.takeWhile CodeUnit.isDigit ∈ digits :=
  mem_digits.mpr ⟨hne, fun _ hv => List.mem_takeWhile_imp hv⟩

/-- What is taken as a number denotes the number it is read as. -/
theorem denotes_startNumber {text : Text} {n : Nat} (hne : text.takeWhile CodeUnit.isDigit ≠ [])
    (h : Token.startNumber text = .token kind n) : Denotes (text.take n) kind := by
  have hpre := List.takeWhile_prefix CodeUnit.isDigit (l := text)
  obtain hint | ⟨after, hdrop, hfraction, hfloat⟩ := startNumber_cases text
  · rw [hint] at h
    cases h
    rw [← List.prefix_iff_eq_take.mp hpre, Number.ofDigits, ← decimalValue_eq]
    exact .int (takeWhile_mem_digits hne)
  · rw [hfloat] at h
    cases h
    -- the point and the digits behind it are taken along
    have htext : text = text.takeWhile CodeUnit.isDigit ++ point :: after := by
      rw [← hdrop]
      exact (List.prefix_iff_eq_append.mp hpre).symm
    have htake : ∀ (whole : Text) (n : Nat), text = whole ++ point :: after →
        text.take (whole.length + 1 + n) = whole ++ point :: after.take n := by
      rintro whole n rfl
      rw [Nat.add_assoc, List.take_length_add_append, Nat.add_comm 1, List.take_succ_cons]
    rw [htake _ _ htext, ← List.prefix_iff_eq_take.mp (List.takeWhile_prefix CodeUnit.isDigit),
      Number.ofDigits, ← decimalValue_eq]
    exact .float (takeWhile_mem_digits hne) (takeWhile_mem_digits hfraction)

/-- What the scanner takes for a token is a lexeme of the token's kind. -/
theorem denotes_of_startAt {n : Nat} (h : Token.startAt u rest = .token kind n) :
    Denotes ((u :: rest).take n) kind := by
  have hstring := (Token.fits_of_startAt h).string
  have hstarts := Token.starts_startAt u rest
  rw [h] at hstarts
  cases hstarts with
  | word hblank hletter =>
    rw [← List.prefix_iff_eq_take.mp (List.takeWhile_prefix CodeUnit.isNameUnit)]
    refine denotes_ofWord (mem_word.mpr ⟨u, rest.takeWhile CodeUnit.isNameUnit, ?_, hletter, ?_⟩)
    · rw [List.takeWhile_cons_of_pos (by rw [CodeUnit.isNameUnit, hletter, Bool.true_or])]
    · exact fun v hv => List.mem_takeWhile_imp hv
  | number hblank hletter hdigit hnumber =>
    refine denotes_startNumber ?_ hnumber
    rw [List.takeWhile_cons_of_pos hdigit]
    exact List.cons_ne_nil _ _
  -- what is taken up to the closing quote holds no other
  | string hquote hlt =>
    rw [hstring _ rfl]
    refine .string fun hmem => ?_
    have hne := List.mem_takeWhile_imp (p := (· != Token.quote)) hmem
    exact absurd hne (by decide)
  | mark hblank hletter hdigit hquote hfind =>
    have hfound := List.find?_some hfind
    rw [← List.prefix_iff_eq_take.mp (List.isPrefixOf_iff_prefix.mp hfound)]
    exact .mark (List.mem_of_find?_eq_some hfind)

/-! ## The scanner takes no less than a lexeme -/

/-- What the scanner makes of a text that begins with the lexeme `t`: a token that is no shorter,
and if it is `t`, then it has the kind of `t`. -/
def Takes (text t : Text) (kind : TokenKind) : Prop :=
  ∃ u rest kind' n, text = u :: rest ∧ Token.startAt u rest = .token kind' n
    ∧ t.length ≤ n ∧ (n = t.length → kind' = kind)

/-- A beginning of a text that is all of one class goes no further than the class. -/
theorem prefix_takeWhile {text : Text} (hpre : t <+: text) (ht : ∀ u ∈ t, p u = true) :
    t <+: text.takeWhile p := by
  obtain ⟨more, rfl⟩ := hpre
  rw [List.takeWhile_append_of_pos ht]
  exact List.prefix_append _ _

/-- A word in front is taken, or a longer one. -/
theorem takes_word {text : Text} (hword : t ∈ word) (hpre : t <+: text) :
    Takes text t (.ofWord t) := by
  obtain ⟨u, r, rfl, hletter, hr⟩ := mem_word.mp hword
  obtain ⟨more, rfl⟩ := hpre
  have hu : u.isNameUnit = true := by rw [CodeUnit.isNameUnit, hletter, Bool.true_or]
  have hle : (u :: r) <+: (u :: (r ++ more)).takeWhile CodeUnit.isNameUnit :=
    prefix_takeWhile (List.prefix_append (u :: r) more) (List.forall_mem_cons.mpr ⟨hu, hr⟩)
  have hblank : u.isSpaceOrTab = false := by
    by_contra hblank
    rw [Bool.not_eq_false, CodeUnit.isSpaceOrTab, Bool.or_eq_true, beq_iff_eq, beq_iff_eq] at hblank
    obtain rfl | rfl := hblank <;> exact absurd hletter (by decide)
  refine ⟨u, r ++ more, .ofWord ((u :: (r ++ more)).takeWhile CodeUnit.isNameUnit), _, rfl, ?_,
    hle.length_le, ?_⟩
  · rw [Token.startAt, hblank, if_neg Bool.false_ne_true, if_pos hletter]
  · intro hlength
    rw [← hle.eq_of_length hlength.symm]

/-- What starts with a digit is a number. -/
theorem startAt_of_isDigit (hdigit : u.isDigit = true) :
    Token.startAt u rest = Token.startNumber (u :: rest) := by
  have hclass : u.isSpaceOrTab = false ∧ u.isLetter = false := by
    simp only [CodeUnit.isDigit, Bool.and_eq_true, decide_eq_true_eq] at hdigit
    simp only [CodeUnit.isSpaceOrTab, CodeUnit.isLetter, Bool.or_eq_false_iff,
      Bool.and_eq_false_iff, decide_eq_false_iff_not, beq_eq_false_iff_ne]
    grind
  rw [Token.startAt, hclass.1, hclass.2, if_neg Bool.false_ne_true, if_neg Bool.false_ne_true,
    if_pos hdigit]

/-- Digits in front are taken, or more than them. -/
theorem takes_int {text : Text} (hdigits : t ∈ digits) (hpre : t <+: text) :
    Takes text t (.number (.int (decimalValue t))) := by
  obtain ⟨hne, ht⟩ := mem_digits.mp hdigits
  have hle := prefix_takeWhile hpre ht
  obtain ⟨u, r, rfl⟩ := List.exists_cons_of_ne_nil hne
  obtain ⟨more, rfl⟩ := hpre
  have hstart : Token.startAt u (r ++ more) = _ := startAt_of_isDigit (ht u List.mem_cons_self)
  obtain hint | ⟨after, -, -, hfloat⟩ := startNumber_cases (u :: (r ++ more))
  · refine ⟨u, r ++ more, _, _, rfl, hstart.trans hint, hle.length_le, ?_⟩
    intro hlength
    rw [decimalValue_eq, hle.eq_of_length hlength.symm]
    rfl
  · have hlength : (u :: r).length ≤ ((u :: (r ++ more)).takeWhile CodeUnit.isDigit).length :=
      hle.length_le
    refine ⟨u, r ++ more, _, _, rfl, hstart.trans hfloat, by omega, ?_⟩
    intro heq
    omega

/-- Digits with a point between them are taken, or more than them. -/
theorem takes_float {text whole fraction : Text} (hwhole : whole ∈ digits)
    (hfraction : fraction ∈ digits) (hpre : whole ++ point :: fraction <+: text) :
    Takes text (whole ++ point :: fraction) (.number (.float
      (Binary64.ofDecimal false ⟨decimalValue (whole ++ fraction), -fraction.length⟩))) := by
  obtain ⟨hne, hw⟩ := mem_digits.mp hwhole
  obtain ⟨hfne, hf⟩ := mem_digits.mp hfraction
  obtain ⟨more, rfl⟩ := hpre
  have htext : whole ++ point :: fraction ++ more = whole ++ point :: (fraction ++ more) := by simp
  -- the digits before the point are all taken, and behind it perhaps more than `fraction`
  have htake : (whole ++ point :: (fraction ++ more)).takeWhile CodeUnit.isDigit = whole := by
    rw [List.takeWhile_append_of_pos hw, List.takeWhile_cons_of_neg (by decide), List.append_nil]
  have hle : fraction <+: (fraction ++ more).takeWhile CodeUnit.isDigit :=
    prefix_takeWhile (List.prefix_append _ _) hf
  have hfne' : (fraction ++ more).takeWhile CodeUnit.isDigit ≠ [] := by
    intro hnil
    rw [hnil] at hle
    exact hfne (List.prefix_nil.mp hle)
  have hstart : Token.startNumber (whole ++ point :: (fraction ++ more))
      = .token (.number (.ofDigits whole (some ((fraction ++ more).takeWhile CodeUnit.isDigit))))
        (whole.length + 1 + ((fraction ++ more).takeWhile CodeUnit.isDigit).length) := by
    have hcond : (point == 0x2E
        && !((fraction ++ more).takeWhile CodeUnit.isDigit).isEmpty) = true := by
      simp [point, hfne']
    simp only [Token.startNumber, htake, List.drop_left, hcond, if_true]
  obtain ⟨u, r, rfl⟩ := List.exists_cons_of_ne_nil hne
  refine ⟨u, r ++ point :: (fraction ++ more), _, _, htext,
    (startAt_of_isDigit (hw u List.mem_cons_self)).trans hstart, ?_, ?_⟩
  · have hlength := hle.length_le
    simp only [List.length_append, List.length_cons]
    omega
  · intro hlength
    have heq : fraction = (fraction ++ more).takeWhile CodeUnit.isDigit := by
      refine hle.eq_of_length ?_
      simp only [List.length_append, List.length_cons] at hlength ⊢
      omega
    rw [← heq, Number.ofDigits, decimalValue_eq]

/-- A string in front is taken, and nothing longer. -/
theorem takes_string {text value : Text} (hvalue : Token.quote ∉ value)
    (hpre : Token.quote :: value ++ [Token.quote] <+: text) :
    Takes text (Token.quote :: value ++ [Token.quote]) (.string value) := by
  obtain ⟨more, rfl⟩ := hpre
  have hcontent : (value ++ Token.quote :: more).takeWhile (· != Token.quote) = value := by
    rw [List.takeWhile_append_of_pos, List.takeWhile_cons_of_neg (by decide), List.append_nil]
    intro v hv
    rw [bne_iff_ne]
    rintro rfl
    exact hvalue hv
  have hlt : value.length < (value ++ Token.quote :: more).length := by
    rw [List.length_append, List.length_cons]
    omega
  refine ⟨Token.quote, value ++ Token.quote :: more, .string value, value.length + 2, by simp, ?_,
    by simp, fun _ => rfl⟩
  have hblank : Token.quote.isSpaceOrTab = false := rfl
  have hletter : Token.quote.isLetter = false := rfl
  have hdigit : Token.quote.isDigit = false := rfl
  simp only [Token.startAt, hblank, hletter, hdigit, hcontent, hlt, beq_self_eq_true, if_true,
    Bool.false_eq_true, if_false]

/-- Longer marks come first, so the first that fits is a longest. -/
theorem length_le_of_find? {text : Text} {m m' : Text × TokenKind}
    (h : TokenKind.marks.find? (·.1.isPrefixOf text) = some m) (hm' : m' ∈ TokenKind.marks)
    (hpre : m'.1 <+: text) : m'.1.length ≤ m.1.length := by
  have hsorted : TokenKind.marks.Pairwise fun a b => b.1.length ≤ a.1.length := by decide
  obtain ⟨-, before, after, heq, hbefore⟩ := List.find?_eq_some_iff_append.mp h
  rw [heq] at hm' hsorted
  obtain hm' | hm' := List.mem_append.mp hm'
  · have hnot := hbefore m' hm'
    rw [List.isPrefixOf_iff_prefix.mpr hpre] at hnot
    exact absurd hnot (by decide)
  · obtain rfl | hm' := List.mem_cons.mp hm'
    · exact le_rfl
    · exact List.rel_of_pairwise_cons (List.pairwise_append.mp hsorted).2.1 hm'

/-- No two marks are spelled alike. -/
theorem kind_eq_of_mem_marks {kind' : TokenKind} (h : (t, kind) ∈ TokenKind.marks)
    (h' : (t, kind') ∈ TokenKind.marks) : kind = kind' := by
  have hmarks : ∀ m ∈ TokenKind.marks, ∀ m' ∈ TokenKind.marks, m.1 = m'.1 → m.2 = m'.2 := by decide
  exact hmarks _ h _ h' rfl

/-- A mark in front is taken, or a longer one. -/
theorem takes_mark {text : Text} (hmark : (t, kind) ∈ TokenKind.marks) (hpre : t <+: text) :
    Takes text t kind := by
  have hmarks : ∀ m ∈ TokenKind.marks, m.1 ≠ [] ∧ (m.1.headD 0).isSpaceOrTab = false
      ∧ (m.1.headD 0).isLetter = false ∧ (m.1.headD 0).isDigit = false
      ∧ (m.1.headD 0 == Token.quote) = false := by decide
  obtain ⟨hne, hblank, hletter, hdigit, hquote⟩ := hmarks _ hmark
  obtain ⟨u, r, rfl⟩ := List.exists_cons_of_ne_nil hne
  rw [List.headD_cons] at hblank hletter hdigit hquote
  have hfound : (TokenKind.marks.find? (·.1.isPrefixOf text)).isSome = true :=
    List.find?_isSome.mpr ⟨_, hmark, List.isPrefixOf_iff_prefix.mpr hpre⟩
  obtain ⟨⟨t', kind'⟩, hfind⟩ := Option.isSome_iff_exists.mp hfound
  -- the first mark that fits is found, and no mark that fits is longer
  have hlength := length_le_of_find? hfind hmark hpre
  have hfits := List.find?_some hfind
  have hpre' : t' <+: text := List.isPrefixOf_iff_prefix.mp hfits
  obtain ⟨more, rfl⟩ := hpre
  refine ⟨u, r ++ more, kind', t'.length, rfl, ?_, hlength, ?_⟩
  · rw [List.cons_append] at hfind
    simp only [Token.startAt, hblank, hletter, hdigit, hquote, hfind, Bool.false_eq_true, if_false]
  · intro heq
    have ht : u :: r = t' :=
      (List.prefix_of_prefix_length_le (List.prefix_append _ _) hpre' hlength).eq_of_length
        heq.symm
    subst ht
    exact kind_eq_of_mem_marks (List.mem_of_find?_eq_some hfind) hmark

/-- Where a lexeme starts the scanner takes a token that is no shorter. -/
theorem takes_of_denotes {text : Text} (h : Denotes t kind) (hpre : t <+: text) :
    Takes text t kind := by
  cases h with
  | keyword hkeyword =>
    have htakes := takes_word (mem_word_of_keyword hkeyword) hpre
    rwa [ofWord_of_keyword hkeyword] at htakes
  | name hword hnot =>
    have htakes := takes_word hword hpre
    rwa [ofWord_of_not_keyword hnot] at htakes
  | int hdigits => exact takes_int hdigits hpre
  | float hwhole hfraction => exact takes_float hwhole hfraction hpre
  | string hvalue => exact takes_string hvalue hpre
  | mark hmark => exact takes_mark hmark hpre

/-- A lexeme on its own is taken as a whole. -/
theorem Denotes.startAt (h : Denotes t kind) :
    ∃ u rest, t = u :: rest ∧ Token.startAt u rest = .token kind t.length := by
  obtain ⟨u, rest, kind', n, rfl, hstart, hle, hkind⟩ := takes_of_denotes h List.prefix_rfl
  obtain rfl : n = (u :: rest).length := Nat.le_antisymm (Token.fits_of_startAt hstart).le hle
  exact ⟨u, rest, rfl, hkind rfl ▸ hstart⟩

/-- A lexeme stands for one kind only. -/
theorem Denotes.unique {kind' : TokenKind} (h : Denotes t kind) (h' : Denotes t kind') :
    kind = kind' := by
  obtain ⟨u, rest, rfl, hstart⟩ := h.startAt
  obtain ⟨u', rest', heq, hstart'⟩ := h'.startAt
  cases heq
  rw [hstart] at hstart'
  cases hstart'
  rfl

/-! ## Problems -/

/-- A complaint of the scanner says which problem it is about. -/
theorem problem_eq_of_complaint {d : Diagnostic} (hkind : d.problem.kind = .lexical)
    (hmessage : d.message = complaint u) :
    d.problem = if u = Token.quote then .unterminatedString else .illegalCharacter u := by
  obtain ⟨problem, position⟩ := d
  -- the two texts differ in their first unit
  have hfirst : (("Unterminated string" : Text)).head? ≠ ("Illegal character '" : Text).head? := by
    decide
  cases problem with
  | illegalCharacter v =>
    have hmessage : "Illegal character '" ++ [v] ++ "'" = complaint u := hmessage
    rw [complaint] at hmessage
    split at hmessage
    · refine absurd (congrArg List.head? hmessage.symm) ?_
      rw [List.append_assoc, List.head?_append_of_ne_nil _ (by decide)]
      exact hfirst
    next hquote =>
      have hv : v = u := by simpa using hmessage
      rw [if_neg hquote, hv]
  | unterminatedString =>
    have hmessage : "Unterminated string" = complaint u := hmessage
    rw [complaint] at hmessage
    split at hmessage
    next hquote => rw [if_pos hquote]
    · refine absurd (congrArg List.head? hmessage) ?_
      rw [List.append_assoc, List.head?_append_of_ne_nil _ (by decide)]
      exact hfirst
  | _ => cases hkind

/-- The scanner's problem at a unit depends on whether the unit is a quote. -/
theorem problem_of_startAt {problem : Problem} (h : Token.startAt u rest = .problem problem) :
    problem = if u = Token.quote then .unterminatedString else .illegalCharacter u := by
  by_cases hquote : u = Token.quote
  · subst hquote
    rw [Token.startAt, if_neg (by decide), if_neg (by decide), if_neg (by decide),
      if_pos (beq_self_eq_true _)] at h
    dsimp only at h
    split at h <;> cases h
    rw [if_pos rfl]
  · have hstarts := Token.starts_startAt u rest
    rw [h] at hstarts
    cases hstarts with
    | unterminated heq => exact absurd heq hquote
    | illegal => rw [if_neg hquote]

/-- The problem at a unit is told in the words of the complaint about it. -/
theorem message_of_startAt {problem : Problem} (h : Token.startAt u rest = .problem problem)
    (position : Position) : Diagnostic.message ⟨problem, position⟩ = complaint u := by
  rw [problem_of_startAt h, complaint]
  split <;> rfl

/-! ## Lines -/

/-- What is taken as a token is the longest lexeme in front. -/
theorem isMunch_of_startAt {n : Nat} (h : Token.startAt u rest = .token kind n) :
    IsMunch (u :: rest) ((u :: rest).take n) := by
  refine ⟨List.take_prefix _ _, mem_lexeme.mpr ⟨kind, denotes_of_startAt h⟩, ?_⟩
  intro t' hpre hlexeme
  obtain ⟨kind', hdenotes⟩ := mem_lexeme.mp hlexeme
  obtain ⟨u', rest', kind'', n', heq, hstart, hle, -⟩ := takes_of_denotes hdenotes hpre
  cases heq
  rw [h] at hstart
  cases hstart
  rwa [List.length_take_of_le (Token.fits_of_startAt h).le]

/-- The longest lexeme in front is taken as a token. -/
theorem startAt_of_isMunch (hmunch : IsMunch (u :: rest) t) (hdenotes : Denotes t kind) :
    Token.startAt u rest = .token kind t.length := by
  obtain ⟨u', rest', kind', n, heq, hstart, hle, hkind⟩ :=
    takes_of_denotes hdenotes hmunch.isPrefix
  cases heq
  have hlongest := hmunch.longest _ (List.take_prefix n _) (isMunch_of_startAt hstart).isLexeme
  rw [List.length_take_of_le (Token.fits_of_startAt hstart).le] at hlongest
  have hn : n = t.length := Nat.le_antisymm hlongest hle
  rw [hstart, hkind hn, hn]

/-- Where no lexeme is in front, there is a problem. -/
theorem startAt_of_not_mem_lexeme (hblank : u.isSpaceOrTab = false)
    (hnone : ∀ t, t <+: u :: rest → t ∉ lexeme) :
    ∃ problem, Token.startAt u rest = .problem problem := by
  cases h : Token.startAt u rest with
  | blank =>
    rw [Token.isSpaceOrTab_of_startAt h] at hblank
    cases hblank
  | token kind n =>
    exact absurd (isMunch_of_startAt h).isLexeme (hnone _ (isMunch_of_startAt h).isPrefix)
  | problem problem => exact ⟨problem, rfl⟩

theorem startAt_of_isSpaceOrTab (hblank : u.isSpaceOrTab = true) :
    Token.startAt u rest = .blank := by
  rw [Token.startAt, if_pos hblank]

/-- A line is scanned by taking the longest lexeme each time. -/
theorem munches_scanLine (line column : Nat) (text : Text) :
    Munches line column text (Token.scanLine line column 0 text) := by
  induction text using Token.lexemeInduction generalizing column with
  | nil => exact .nil
  | blank u rest h ih =>
    rw [Token.scanLine_blank h]
    exact .blank (Token.isSpaceOrTab_of_startAt h) (ih _)
  | token u rest kind n h ih =>
    have hblank : u.isSpaceOrTab = false := by
      by_contra hblank
      rw [startAt_of_isSpaceOrTab (Bool.not_eq_false _ ▸ hblank)] at h
      cases h
    have hlength : ((u :: rest).take n).length = n :=
      List.length_take_of_le (Token.fits_of_startAt h).le
    have hmunches := Munches.token hblank (isMunch_of_startAt h) (denotes_of_startAt h)
      (hlength.symm ▸ ih (column + n))
    rwa [hlength, ← Token.scanLine_token h] at hmunches
  | problem u rest problem h ih =>
    obtain ⟨hlexical, hblank⟩ := Token.lexical_of_startAt h
    rw [Token.scanLine_problem h]
    refine .problem hblank ?_ hlexical (message_of_startAt h _) rfl (ih _)
    -- a lexeme in front would have been taken
    intro t hpre hlexeme
    obtain ⟨kind, hdenotes⟩ := mem_lexeme.mp hlexeme
    obtain ⟨u', rest', kind', n, heq, hstart, -⟩ := takes_of_denotes hdenotes hpre
    cases heq
    rw [h] at hstart
    cases hstart

/-- There is one way to take the longest lexeme each time, and that is the scan. -/
theorem Munches.eq_scanLine {line column : Nat} {text : Text}
    {items : List (Except Diagnostic Token)} (h : Munches line column text items) :
    items = Token.scanLine line column 0 text := by
  induction h with
  | nil => rfl
  | blank hblank hrest ih => rw [Token.scanLine_blank (startAt_of_isSpaceOrTab hblank), ih]
  | token hblank hmunch hdenotes hrest ih =>
    have htake := List.prefix_iff_eq_take.mp hmunch.isPrefix
    rw [Token.scanLine_token (startAt_of_isMunch hmunch hdenotes), ih, ← htake]
  | @problem column u rest d items hblank hnone hkind hmessage hposition hrest ih =>
    obtain ⟨problem, hstart⟩ := startAt_of_not_mem_lexeme hblank hnone
    have hd : d = ⟨problem, ⟨line, column⟩⟩ := by
      rw [problem_of_startAt hstart, ← problem_eq_of_complaint hkind hmessage, ← hposition]
    rw [Token.scanLine_problem hstart, ih, hd]

/-- A text is read in one way, and that is how the scanner reads it: the longest lexeme first, and
where there is none, one unit as a problem. -/
theorem munches_iff_scanLine (line column : Nat) (text : Text)
    (items : List (Except Diagnostic Token)) :
    Munches line column text items ↔ items = Token.scanLine line column 0 text := by
  constructor
  · exact Munches.eq_scanLine
  · rintro rfl
    exact munches_scanLine line column text

end Plume.Lexicon
