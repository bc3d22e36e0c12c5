import Mathlib.Algebra.Order.Field.Rat
import Mathlib.Data.List.Induction
import Mathlib.Data.List.TakeWhile
import Mathlib.Tactic.Ring
import Plume.Number.Basic
import Plume.Proofs.Rounding

/-!
# Reading the texts of numbers

Each way of writing a number has a reader beside it: `Text.intValue` for integers, `Decimal.ofText`
for digits with a point and an exponent, `Binary64.ofText` for floats and `Number.ofText` for all
numbers. The readers give back what was written, so the text of a number determines it
(`Number.ofText_text`). For a decimal this holds of its value, since zeros at its end are not
written (`Decimal.value_ofText_text`).
-/

namespace Plume

namespace Text

/-! ## Digits -/

theorem isDigit_digit {d : Nat} (h : d < 10) : (digit d).isDigit = true := by
  revert d
  decide

/-- A digit is read as what it was written for. -/
theorem digitValue_digit {d : Nat} (h : d < 10) : digitValue (digit d) = d := by
  revert d
  decide

/-- A digit is none of the other units. -/
theorem ne_of_isDigit {u v : CodeUnit} (hu : u.isDigit = true) (hv : v.isDigit = false) :
    u ≠ v := by
  rintro rfl
  rw [hu] at hv
  cases hv

theorem isDigit_of_mem_zeros {k : Nat} : ∀ u ∈ List.replicate k (digit 0), u.isDigit = true := by
  intro u hu
  rw [List.eq_of_mem_replicate hu]
  decide

theorem digitsValue_concat (ds : Text) (u : CodeUnit) :
    digitsValue (ds ++ [u]) = 10 * digitsValue ds + digitValue u := by
  simp [digitsValue]

/-- Digits in front count for as many powers of ten as there are digits behind them. -/
theorem digitsValue_append (a b : Text) :
    digitsValue (a ++ b) = digitsValue a * 10 ^ b.length + digitsValue b := by
  induction b using List.reverseRecOn with
  | nil => simp [digitsValue]
  | append_singleton b u ih =>
    rw [← List.append_assoc, digitsValue_concat, digitsValue_concat, ih, List.length_append,
      List.length_singleton]
    ring

theorem digitsValue_zeros (k : Nat) : digitsValue (List.replicate k (digit 0)) = 0 := by
  induction k with
  | zero => rfl
  | succ k ih =>
    rw [List.replicate_succ', digitsValue_concat, ih]
    rfl

/-- Digits are written in front of what is there. -/
theorem digitsBefore_append (n : Nat) (a b : Text) :
    digitsBefore n (a ++ b) = digitsBefore n a ++ b := by
  induction n, a using digitsBefore.induct with
  | case1 n a hn => rw [digitsBefore, digitsBefore.eq_1 n a, if_pos hn, if_pos hn, List.cons_append]
  | case2 n a hn ih =>
    rw [digitsBefore, digitsBefore.eq_1 n a, if_neg hn, if_neg hn, ← List.cons_append, ih]

/-- A numeral is the numeral of its tens and a last digit. -/
theorem ofNat_eq (n : Nat) :
    ofNat n = if n < 10 then [digit n] else ofNat (n / 10) ++ [digit (n % 10)] := by
  rw [ofNat, digitsBefore, ofNat, ← digitsBefore_append, List.nil_append]

theorem ofNat_ne_nil (n : Nat) : ofNat n ≠ [] := by
  rw [ofNat_eq]
  split <;> simp

/-- A numeral is made of digits. -/
theorem isDigit_of_mem_ofNat {n : Nat} : ∀ u ∈ ofNat n, u.isDigit = true := by
  induction n using Nat.strong_induction_on with
  | _ n ih =>
    intro u hu
    rw [ofNat_eq] at hu
    split at hu
    next hn =>
      rw [List.mem_singleton.mp hu]
      exact isDigit_digit hn
    next hn =>
      obtain hu | hu := List.mem_append.mp hu
      · exact ih (n / 10) (by omega) u hu
      · rw [List.mem_singleton.mp hu]
        exact isDigit_digit (Nat.mod_lt n (by decide))

/-- A numeral is read as the number that it was written for. -/
theorem digitsValue_ofNat (n : Nat) : digitsValue (ofNat n) = n := by
  induction n using Nat.strong_induction_on with
  | _ n ih =>
    rw [ofNat_eq]
    split
    next hn => exact (Nat.zero_add _).trans (digitValue_digit hn)
    next hn =>
      rw [digitsValue_concat, ih (n / 10) (by omega), digitValue_digit (Nat.mod_lt n (by decide))]
      omega

/-! ## Integers -/

/-- The integer that digits with perhaps a sign in front of them stand for. -/
def intValue : Text → Int
  | [] => 0
  | u :: ds =>
    if u = 0x2D then -digitsValue ds
    else if u = 0x2B then digitsValue ds
    else digitsValue (u :: ds)

/-- Without a sign, digits are an integer as they are. -/
theorem intValue_of_isDigit {ds : Text} (h : ∀ u ∈ ds, u.isDigit = true) :
    intValue ds = digitsValue ds := by
  cases ds with
  | nil => rfl
  | cons u ds =>
    have hu := h u List.mem_cons_self
    rw [intValue, if_neg (ne_of_isDigit hu (by decide)), if_neg (ne_of_isDigit hu (by decide))]

/-- A numeral with its sign is read as the integer that it was written for. -/
theorem intValue_ofInt (n : Int) : intValue (ofInt n) = n := by
  cases n with
  | ofNat n =>
    rw [ofInt, intValue_of_isDigit isDigit_of_mem_ofNat, digitsValue_ofNat]
    rfl
  | negSucc n =>
    show -(digitsValue (ofNat (n + 1)) : Int) = Int.negSucc n
    rw [digitsValue_ofNat]
    rfl

/-- An integer is written with digits and a minus sign. -/
theorem mem_ofInt {n : Int} : ∀ u ∈ ofInt n, (u.isDigit || u == 0x2D) = true := by
  intro u hu
  cases n with
  | ofNat n => rw [isDigit_of_mem_ofNat u hu, Bool.true_or]
  | negSucc n =>
    obtain rfl | hu := List.mem_cons.mp hu
    · rfl
    · rw [isDigit_of_mem_ofNat u hu, Bool.true_or]

/-! ## Marks between digits -/

/-- What stands in front of the first `mark`, and what stands behind it. -/
def cut (mark : CodeUnit) (t : Text) : Text × Text :=
  (t.takeWhile (· != mark), (t.dropWhile (· != mark)).tail)

theorem bne_of_not_mem {mark : CodeUnit} {a : Text} (h : mark ∉ a) :
    ∀ u ∈ a, (u != mark) = true := by
  intro u hu
  rw [bne_iff_ne]
  rintro rfl
  exact h hu

/-- A text is cut at the first mark. -/
theorem cut_append {mark : CodeUnit} {a : Text} (h : mark ∉ a) (b : Text) :
    cut mark (a ++ mark :: b) = (a, b) := by
  have hne := bne_of_not_mem h
  rw [cut, List.takeWhile_append_of_pos hne, List.dropWhile_append_of_pos hne]
  simp

/-- Without a mark nothing is cut off. -/
theorem cut_of_not_mem {mark : CodeUnit} {a : Text} (h : mark ∉ a) : cut mark a = (a, []) := by
  have hne := bne_of_not_mem h
  rw [cut, List.takeWhile_eq_self_iff.mpr hne, List.dropWhile_eq_nil_iff.mpr hne, List.tail_nil]

/-- Among digits there is nothing else. -/
theorem not_mem_of_isDigit {ds : Text} (h : ∀ u ∈ ds, u.isDigit = true) {u : CodeUnit}
    (hu : u.isDigit = false) : u ∉ ds :=
  fun hmem => ne_of_isDigit (h u hmem) hu rfl

end Text

/-! ## Decimals -/

namespace Decimal

open Text

/-- The decimal that a text stands for: digits, perhaps a point with digits behind it, and perhaps
an `e` with an exponent behind it. -/
def ofText (t : Text) : Decimal :=
  let (mantissa, power) := cut 0x65 t
  let (whole, fraction) := cut 0x2E mantissa
  ⟨digitsValue (whole ++ fraction), intValue power - fraction.length⟩

variable {ds whole fraction mantissa : Text}

/-- A decimal without a point is a whole number. -/
theorem ofText_digits (h : ∀ u ∈ ds, u.isDigit = true) : ofText ds = ⟨digitsValue ds, 0⟩ := by
  have hexponent : cut 0x65 ds = (ds, []) := cut_of_not_mem (not_mem_of_isDigit h (by decide))
  have hpoint : cut 0x2E ds = (ds, []) := cut_of_not_mem (not_mem_of_isDigit h (by decide))
  simp only [ofText, hexponent, hpoint, List.append_nil]
  rfl

/-- There is no `e` before the exponent. -/
theorem not_mem_mantissa (hwhole : ∀ u ∈ whole, u.isDigit = true)
    (hfraction : ∀ u ∈ fraction, u.isDigit = true) :
    (0x65 : CodeUnit) ∉ whole ++ 0x2E :: fraction := by
  rw [List.mem_append, List.mem_cons]
  rintro (h | h | h)
  · exact not_mem_of_isDigit hwhole (by decide) h
  · exact absurd h (by decide)
  · exact not_mem_of_isDigit hfraction (by decide) h

/-- Each digit behind the point takes one off the exponent. -/
theorem ofText_point (hwhole : ∀ u ∈ whole, u.isDigit = true)
    (hfraction : ∀ u ∈ fraction, u.isDigit = true) :
    ofText (whole ++ 0x2E :: fraction) = ⟨digitsValue (whole ++ fraction), -fraction.length⟩ := by
  have hmantissa := not_mem_mantissa hwhole hfraction
  have hpoint := cut_append (not_mem_of_isDigit hwhole (u := 0x2E) (by decide)) fraction
  simp only [ofText, cut_of_not_mem hmantissa, hpoint, intValue, Int.zero_sub]

/-- A written exponent is added to the one that the point makes. -/
theorem ofText_exponent (h : (0x65 : CodeUnit) ∉ mantissa) (power : Text) :
    ofText (mantissa ++ 0x65 :: power)
      = ⟨(ofText mantissa).digits, (ofText mantissa).exponent + intValue power⟩ := by
  simp only [ofText, cut_append h, cut_of_not_mem h, intValue, Decimal.mk.injEq, true_and]
  omega

/-- A point among digits moves the exponent by as many places as there are digits behind it. -/
theorem ofText_take_drop (h : ∀ u ∈ ds, u.isDigit = true) (k : Nat) :
    ofText (ds.take k ++ ("." : Text) ++ ds.drop k)
      = ⟨digitsValue ds, -(ds.length - k : Nat)⟩ := by
  have htext : ds.take k ++ ("." : Text) ++ ds.drop k = ds.take k ++ 0x2E :: ds.drop k := by
    rw [List.append_assoc]
    rfl
  rw [htext, ofText_point (fun u hu => h u (List.mem_of_mem_take hu))
    (fun u hu => h u (List.mem_of_mem_drop hu)), List.take_append_drop, List.length_drop]

/-- A decimal in positional form is read as its value. -/
theorem value_ofText_positional (h : ∀ u ∈ ds, u.isDigit = true) (power : Int) :
    (ofText (positional ds power)).value = value ⟨digitsValue ds, power + 1 - ds.length⟩ := by
  have hzero : ∀ u ∈ [digit 0], u.isDigit = true := isDigit_of_mem_zeros (k := 1)
  cases power with
  | negSucc n =>
    -- all digits stand behind the point, after `n` zeros that add nothing
    have hfraction : ∀ u ∈ List.replicate n (digit 0) ++ ds, u.isDigit = true := by
      intro u hu
      exact (List.mem_append.mp hu).elim (isDigit_of_mem_zeros u) (h u)
    have htext : positional ds (.negSucc n)
        = [digit 0] ++ 0x2E :: (List.replicate n (digit 0) ++ ds) := rfl
    have hvalue : digitsValue ([digit 0] ++ (List.replicate n (digit 0) ++ ds))
        = digitsValue ds := by
      rw [← List.append_assoc, digitsValue_append, List.singleton_append, ← List.replicate_succ,
        digitsValue_zeros, Nat.zero_mul, Nat.zero_add]
    rw [htext, ofText_point hzero hfraction, hvalue, List.length_append, List.length_replicate]
    congr 2
    omega
  | ofNat n =>
    rw [positional]
    split
    next hle =>
      -- zeros fill up the places in front of the point, and each multiplies by ten
      have hwhole : ∀ u ∈ ds ++ List.replicate (n + 1 - ds.length) (digit 0), u.isDigit = true := by
        intro u hu
        exact (List.mem_append.mp hu).elim (h u) (isDigit_of_mem_zeros u)
      have hvalue : digitsValue (ds ++ List.replicate (n + 1 - ds.length) (digit 0) ++ [digit 0])
          = digitsValue ds * 10 ^ (n + 1 - ds.length + 1) := by
        rw [List.append_assoc, ← List.replicate_succ', digitsValue_append, digitsValue_zeros,
          List.length_replicate, Nat.add_zero]
      have hpoint : (".0" : Text) = 0x2E :: [digit 0] := rfl
      rw [hpoint, ofText_point hwhole hzero, hvalue, value_mul_pow]
      congr 2
      simp only [List.length_singleton, Int.ofNat_eq_natCast]
      omega
    next hgt =>
      rw [ofText_take_drop h]
      congr 2
      simp only [Int.ofNat_eq_natCast]
      omega

/-- A zero in front of an exponent is worth nothing. -/
theorem digitsValue_twoDigits (n : Nat) : digitsValue (twoDigits n) = n := by
  rw [twoDigits]
  split
  · rw [← List.singleton_append, digitsValue_append, digitsValue_ofNat]
    show 0 * _ + n = n
    rw [Nat.zero_mul, Nat.zero_add]
  · exact digitsValue_ofNat n

/-- The exponent is written with its sign. -/
theorem exists_sign (power : Int) : ∃ sign : CodeUnit,
    Text.ofString (if power < 0 then "e-" else "e+") = [0x65, sign]
      ∧ intValue (sign :: twoDigits power.natAbs) = power := by
  by_cases hneg : power < 0
  · refine ⟨0x2D, by rw [if_pos hneg]; rfl, ?_⟩
    rw [intValue, if_pos rfl, digitsValue_twoDigits]
    omega
  · refine ⟨0x2B, by rw [if_neg hneg]; rfl, ?_⟩
    rw [intValue, if_neg (by decide), if_pos rfl, digitsValue_twoDigits]
    omega

/-- A decimal in scientific form is read with its own digits and its own exponent. -/
theorem ofText_scientific (h : ∀ u ∈ ds, u.isDigit = true) (hne : ds ≠ []) (power : Int) :
    ofText (scientific ds power) = ⟨digitsValue ds, power + 1 - ds.length⟩ := by
  obtain ⟨sign, hsign, hpower⟩ := exists_sign power
  have htext : ∀ mantissa : Text, mantissa ++ [0x65, sign] ++ twoDigits power.natAbs
      = mantissa ++ 0x65 :: sign :: twoDigits power.natAbs := by
    intro mantissa
    rw [List.append_assoc]
    rfl
  have hpos := List.length_pos_iff.mpr hne
  rw [scientific, hsign]
  simp only [htext]
  split
  -- a single digit has no point
  next hle =>
    rw [ofText_exponent (not_mem_of_isDigit h (by decide)), ofText_digits h, hpower]
    congr 1
    simp only
    omega
  -- the point stands behind the first digit
  next hgt =>
    have hmantissa : (0x65 : CodeUnit) ∉ ds.take 1 ++ ("." : Text) ++ ds.drop 1 := by
      rw [List.append_assoc]
      exact not_mem_mantissa (fun u hu => h u (List.mem_of_mem_take hu))
        (fun u hu => h u (List.mem_of_mem_drop hu))
    rw [ofText_exponent hmantissa, ofText_take_drop h, hpower]
    congr 1
    simp only
    omega

/-- The digits of a decimal are its significant ones and some zeros behind them. -/
theorem exists_ofNat_eq (d : Decimal) :
    ∃ k, Text.ofNat d.digits = d.significant ++ List.replicate k (digit 0) := by
  refine ⟨((Text.ofNat d.digits).reverse.takeWhile (· == digit 0)).length, ?_⟩
  have hzeros : (Text.ofNat d.digits).reverse.takeWhile (· == digit 0)
      = List.replicate ((Text.ofNat d.digits).reverse.takeWhile (· == digit 0)).length (digit 0) :=
    List.eq_replicate_iff.mpr ⟨rfl, fun u hu => by simpa using List.mem_takeWhile_imp hu⟩
  have hsplit := congrArg List.reverse
    (List.takeWhile_append_dropWhile (p := (· == digit 0)) (l := (Text.ofNat d.digits).reverse))
  rw [List.reverse_append, List.reverse_reverse, hzeros, List.reverse_replicate] at hsplit
  exact hsplit.symm

/-- The significant digits are digits. -/
theorem isDigit_of_mem_significant {d : Decimal} : ∀ u ∈ d.significant, u.isDigit = true := by
  obtain ⟨k, hk⟩ := exists_ofNat_eq d
  intro u hu
  refine isDigit_of_mem_ofNat (n := d.digits) u ?_
  rw [hk]
  exact List.mem_append_left _ hu

/-- A decimal other than zero has a significant digit. -/
theorem significant_ne_nil {d : Decimal} (h : d.digits ≠ 0) : d.significant ≠ [] := by
  obtain ⟨k, hk⟩ := exists_ofNat_eq d
  intro hnil
  rw [hnil, List.nil_append] at hk
  refine h ?_
  rw [← digitsValue_ofNat d.digits, hk, digitsValue_zeros]

/-- The significant digits with their power of ten are the decimal. -/
theorem value_significant (d : Decimal) :
    value ⟨digitsValue d.significant, d.leadingPower + 1 - d.significant.length⟩ = d.value := by
  obtain ⟨k, hk⟩ := exists_ofNat_eq d
  have hdigits : d.digits = digitsValue d.significant * 10 ^ k := by
    have hvalue := congrArg digitsValue hk
    rwa [digitsValue_ofNat, digitsValue_append, digitsValue_zeros, List.length_replicate,
      Nat.add_zero] at hvalue
  have hpower : d.leadingPower + 1 - d.significant.length = d.exponent + k := by
    rw [leadingPower, hk, List.length_append, List.length_replicate]
    omega
  rw [hpower, ← value_mul_pow, ← hdigits]

/-- A decimal is written as a text that stands for it. -/
theorem value_ofText_text {d : Decimal} (h : d.digits ≠ 0) : (ofText d.text).value = d.value := by
  rw [← value_significant d, text]
  split
  · exact value_ofText_positional isDigit_of_mem_significant _
  · rw [ofText_scientific isDigit_of_mem_significant (significant_ne_nil h)]

/-- The text of a decimal starts with a digit. -/
theorem exists_text_eq_cons {d : Decimal} (h : d.digits ≠ 0) :
    ∃ u rest, d.text = u :: rest ∧ u.isDigit = true := by
  obtain ⟨u, rest, hcons⟩ := List.exists_cons_of_ne_nil (significant_ne_nil h)
  have hu : u.isDigit = true := isDigit_of_mem_significant u (by rw [hcons]; exact .head _)
  rw [text, hcons]
  split
  · rcases d.leadingPower with n | n
    · rw [positional]
      split
      · exact ⟨u, _, rfl, hu⟩
      · exact ⟨u, _, rfl, hu⟩
    · exact ⟨digit 0, _, rfl, by decide⟩
  · rw [scientific]
    split
    · exact ⟨u, _, rfl, hu⟩
    · exact ⟨u, _, rfl, hu⟩

/-- The text of a decimal has a point or an exponent. -/
theorem exists_mark_mem_text (d : Decimal) : ∃ mark ∈ d.text, mark = 0x2E ∨ mark = 0x65 := by
  rw [text]
  split
  -- in positional form there is always a point
  · refine ⟨0x2E, ?_, .inl rfl⟩
    rcases d.leadingPower with n | n
    · rw [positional]
      split
      · exact List.mem_append_right _ (.head _)
      · exact List.mem_append_left _ (List.mem_append_right _ (.head _))
    · exact .tail _ (.head _)
  -- in scientific form always an exponent
  · refine ⟨0x65, List.mem_append_left _ (List.mem_append_right _ ?_), .inr rfl⟩
    split <;> exact .head _

/-- A decimal is written on one line. -/
theorem lineFeed_not_mem_text (d : Decimal) : CodeUnit.lineFeed ∉ d.text := by
  have hdigits : CodeUnit.lineFeed ∉ d.significant :=
    not_mem_of_isDigit isDigit_of_mem_significant (by decide)
  have hzeros : ∀ k, CodeUnit.lineFeed ∉ List.replicate k (digit 0) :=
    fun k => not_mem_of_isDigit isDigit_of_mem_zeros (by decide)
  have hpoint : ∀ k, CodeUnit.lineFeed
      ∉ d.significant.take k ++ ("." : Text) ++ d.significant.drop k := by
    intro k
    simp only [List.mem_append, not_or]
    exact ⟨⟨fun h => hdigits (List.mem_of_mem_take h), by decide⟩,
      fun h => hdigits (List.mem_of_mem_drop h)⟩
  rw [text]
  split
  -- in positional form: zeros at the end, a point inside, or zeros in front
  · rcases d.leadingPower with n | n
    · rw [positional]
      split
      · simp only [List.mem_append, not_or]
        exact ⟨⟨hdigits, hzeros _⟩, by decide⟩
      · exact hpoint (n + 1)
    · simp only [positional, List.mem_append, not_or]
      exact ⟨⟨by decide, hzeros n⟩, hdigits⟩
  -- in scientific form: the mantissa, the sign and the exponent
  · have hpower : ∀ n, CodeUnit.lineFeed ∉ twoDigits n := by
      intro n
      have hn : CodeUnit.lineFeed ∉ Text.ofNat n :=
        not_mem_of_isDigit isDigit_of_mem_ofNat (by decide)
      rw [twoDigits]
      split
      · rw [List.mem_cons, not_or]
        exact ⟨by decide, hn⟩
      · exact hn
    simp only [scientific, List.mem_append, not_or]
    refine ⟨⟨?_, ?_⟩, hpower _⟩
    · split
      · exact hdigits
      · exact hpoint 1
    · split <;> decide

end Decimal

/-! ## Numbers -/

namespace Binary64

/-- The float that a text stands for. -/
def ofText (t : Text) : Binary64 :=
  let negative := t.head? == some 0x2D
  let magnitude := if negative then t.tail else t
  if magnitude = ("nan" : Text) then .nan
  else if magnitude = ("inf" : Text) then .infinity negative
  else .ofDecimal negative (.ofText magnitude)

/-- A minus sign in front of digits is the sign. -/
theorem ofText_of_isDigit (negative : Bool) {u : CodeUnit} (hu : u.isDigit = true) (rest : Text) :
    ofText (if negative then "-" ++ u :: rest else u :: rest)
      = .ofDecimal negative (.ofText (u :: rest)) := by
  have hminus : (u == 0x2D) = false := beq_eq_false_iff_ne.mpr (Text.ne_of_isDigit hu (by decide))
  have hnan : u :: rest ≠ ("nan" : Text) :=
    fun h => Text.ne_of_isDigit hu (v := 0x6E) (by decide) (List.cons.inj h).1
  have hinf : u :: rest ≠ ("inf" : Text) :=
    fun h => Text.ne_of_isDigit hu (v := 0x69) (by decide) (List.cons.inj h).1
  cases negative with
  | false => simp [ofText, hminus, hnan, hinf]
  | true =>
    show ofText (0x2D :: u :: rest) = _
    simp [ofText, hnan, hinf]

/-- A float is written as a text that stands for it. -/
theorem ofText_text (x : Binary64) : ofText x.text = x := by
  cases x with
  | nan => rfl
  | infinity negative => cases negative <;> rfl
  | finite negative e f =>
    rw [text]
    by_cases hzero : e.val = 0 ∧ f.val = 0
    -- zero has no significant digits, and a text of its own
    · obtain ⟨he, hf⟩ := hzero
      obtain rfl : e = ⟨0, by decide⟩ := Fin.ext he
      obtain rfl : f = ⟨0, by decide⟩ := Fin.ext hf
      exact (ofText_of_isDigit negative (u := 0x30) (by decide) [0x2E, 0x30]).trans
        (ofDecimal_zero negative rfl)
    · have hread := ofDecimal_shortest e f
      have hdigits : (Decimal.shortest e f).digits ≠ 0 := by
        intro h
        rw [ofDecimal_zero false h, zero] at hread
        cases hread
        exact hzero ⟨rfl, rfl⟩
      obtain ⟨u, rest, htext, hu⟩ := Decimal.exists_text_eq_cons hdigits
      simp only [if_neg hzero, htext]
      rw [ofText_of_isDigit negative hu, ← htext,
        ofDecimal_congr negative (Decimal.value_ofText_text hdigits)]
      exact ofDecimal_of_finite hread negative

/-- The text of a float has a unit that no integer is written with. -/
theorem exists_mark_mem_text (x : Binary64) :
    ∃ mark ∈ x.text, (mark.isDigit || mark == 0x2D) = false := by
  have hmagnitude : ∀ (negative : Bool) {magnitude : Text} {mark : CodeUnit}, mark ∈ magnitude →
      mark ∈ if negative then "-" ++ magnitude else magnitude := by
    intro negative magnitude mark h
    cases negative with
    | false => exact h
    | true => exact List.mem_append_right _ h
  cases x with
  | nan => exact ⟨0x6E, .head _, by decide⟩
  | infinity negative => cases negative <;> exact ⟨0x6E, by decide, by decide⟩
  | finite negative e f =>
    rw [text]
    by_cases hzero : e.val = 0 ∧ f.val = 0
    · refine ⟨0x2E, hmagnitude negative ?_, by decide⟩
      rw [if_pos hzero]
      decide
    · obtain ⟨mark, hmem, hmark⟩ := (Decimal.shortest e f).exists_mark_mem_text
      refine ⟨mark, hmagnitude negative ?_, ?_⟩
      · rwa [if_neg hzero]
      · obtain rfl | rfl := hmark <;> decide

/-- A float is written on one line. -/
theorem lineFeed_not_mem_text (x : Binary64) : CodeUnit.lineFeed ∉ x.text := by
  cases x with
  | nan => decide
  | infinity negative => cases negative <;> decide
  | finite negative e f =>
    have hmagnitude : CodeUnit.lineFeed
        ∉ if e.val = 0 ∧ f.val = 0 then ("0.0" : Text) else (Decimal.shortest e f).text := by
      split
      · decide
      · exact Decimal.lineFeed_not_mem_text _
    rw [text]
    split
    · rw [List.mem_append, not_or]
      exact ⟨by decide, hmagnitude⟩
    · exact hmagnitude

end Binary64

namespace Number

/-- The number that a text stands for: an integer if it has digits and minus signs only. -/
def ofText (t : Text) : Number :=
  if t.all fun u => u.isDigit || u == 0x2D then .int (Text.intValue t) else .float (.ofText t)

/-- A number is written as a text that stands for it. -/
theorem ofText_text (n : Number) : ofText n.text = n := by
  cases n with
  | int n =>
    rw [text, ofText, if_pos (List.all_eq_true.mpr Text.mem_ofInt), Text.intValue_ofInt]
  | float x =>
    obtain ⟨mark, hmem, hmark⟩ := x.exists_mark_mem_text
    have hall : ¬ (x.text.all fun u => u.isDigit || u == 0x2D) = true := by
      intro h
      rw [List.all_eq_true.mp h mark hmem] at hmark
      cases hmark
    rw [text, ofText, if_neg hall, Binary64.ofText_text]

/-- A number is written on one line. -/
theorem lineFeed_not_mem_text (n : Number) : CodeUnit.lineFeed ∉ n.text := by
  cases n with
  | int n =>
    intro h
    exact absurd (Text.mem_ofInt _ h) (by decide)
  | float x => exact x.lineFeed_not_mem_text

end Number

end Plume
