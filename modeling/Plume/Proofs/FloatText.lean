import Plume.Proofs.Shortest
import Plume.Value.Basic

/-!
# The texts of floats

A finite float other than zero is written as its sign and its shortest decimal. From `10 ^ -4` up
to `10 ^ 16` the decimal is written with digits on both sides of a point, and otherwise with one
digit in front of the point and a power of ten (`Value.text_float_denotes`). Which of the two can be
told from the float as well as from its decimal. No integer is written with a point, a power of ten
or a word, and so no float has the text of an integer.
-/

namespace Plume

open Text Decimal

/-! ## Numerals -/

namespace Numeral

/-- Digits, a point and digits are a number in positional notation. -/
inductive Positional : Text → ℚ → Prop
  | point {whole fraction : Text} : AreDigits whole → AreDigits fraction →
      Positional (whole ++ "." ++ fraction) (digitsValue (whole ++ fraction) / 10 ^ fraction.length)

/-- A mantissa is a digit, which may have a point and more digits behind it. -/
inductive Mantissa : Text → ℚ → Prop
  | digit {u : CodeUnit} : u.isDigit = true → Mantissa [u] (digitValue u)
  | point {u : CodeUnit} {fraction : Text} : u.isDigit = true → AreDigits fraction →
      Mantissa ([u] ++ "." ++ fraction) (digitsValue (u :: fraction) / 10 ^ fraction.length)

/-- A mantissa, `e`, a sign and at least two digits are a number in scientific notation. -/
inductive Scientific : Text → ℚ → Prop
  | plus {mantissa exponent : Text} {m : ℚ} : Mantissa mantissa m → AreDigits exponent →
      2 ≤ exponent.length →
      Scientific (mantissa ++ "e+" ++ exponent) (m * 10 ^ digitsValue exponent)
  | minus {mantissa exponent : Text} {m : ℚ} : Mantissa mantissa m → AreDigits exponent →
      2 ≤ exponent.length →
      Scientific (mantissa ++ "e-" ++ exponent) (m / 10 ^ digitsValue exponent)

end Numeral

/-! ## Decimals as numerals -/

namespace Decimal

variable {ds : Text}

/-- In positional form there are digits on both sides of the point. -/
theorem exists_positional_eq (h : AreDigits ds) (power : Int) :
    ∃ whole fraction, AreDigits whole ∧ AreDigits fraction
      ∧ positional ds power = whole ++ ("." : Text) ++ fraction := by
  have hzero : AreDigits [digit 0] := ⟨List.cons_ne_nil _ _, isDigit_of_mem_zeros (k := 1)⟩
  cases power with
  -- below one: zeros in front of the digits
  | negSucc n =>
    refine ⟨[digit 0], List.replicate n (digit 0) ++ ds, hzero, ⟨?_, ?_⟩, ?_⟩
    · exact List.append_ne_nil_of_right_ne_nil _ h.ne_nil
    · exact List.forall_mem_append.mpr ⟨isDigit_of_mem_zeros, h.isDigit⟩
    · rw [positional, List.append_assoc]
      rfl
  | ofNat n =>
    rw [positional]
    split
    -- a whole number: zeros behind the digits, and one behind the point
    next hle =>
      refine ⟨ds ++ List.replicate (n + 1 - ds.length) (digit 0), [digit 0], ⟨?_, ?_⟩, hzero, ?_⟩
      · exact List.append_ne_nil_of_left_ne_nil h.ne_nil _
      · exact List.forall_mem_append.mpr ⟨h.isDigit, isDigit_of_mem_zeros⟩
      · rw [List.append_assoc _ ("." : Text)]
        rfl
    -- the point stands inside the digits
    next hgt =>
      refine ⟨ds.take (n + 1), ds.drop (n + 1), ⟨?_, ?_⟩, ⟨?_, ?_⟩, rfl⟩
      · rw [Ne, List.take_eq_nil_iff, not_or]
        exact ⟨Nat.succ_ne_zero n, h.ne_nil⟩
      · exact fun u hu => h.isDigit u (List.mem_of_mem_take hu)
      · rw [Ne, List.drop_eq_nil_iff]
        exact hgt
      · exact fun u hu => h.isDigit u (List.mem_of_mem_drop hu)

/-- Digits are put into positional notation without changing their value. -/
theorem positional_denotes (h : AreDigits ds) (power : Int) :
    Numeral.Positional (positional ds power) (ofDigits ds power).value := by
  obtain ⟨whole, fraction, hwhole, hfraction, htext⟩ := exists_positional_eq h power
  have hpoint : whole ++ ("." : Text) ++ fraction = whole ++ 0x2E :: fraction := by
    rw [List.append_assoc]
    rfl
  have hvalue : (ofDigits ds power).value
      = digitsValue (whole ++ fraction) / 10 ^ fraction.length := by
    have hread := value_ofText_positional h.isDigit power
    rw [htext, hpoint, ofText_point hwhole.isDigit hfraction.isDigit, value_mk, zpow_neg,
      zpow_natCast, ← div_eq_mul_inv] at hread
    exact hread.symm
  rw [htext, hvalue]
  exact .point hwhole hfraction

/-- An exponent has two digits at least. -/
theorem areDigits_twoDigits (n : Nat) : AreDigits (twoDigits n) ∧ 2 ≤ (twoDigits n).length := by
  have hlength := List.length_pos_iff.mpr (ofNat_ne_nil n)
  rw [twoDigits]
  split
  next hlt =>
    refine ⟨⟨List.cons_ne_nil _ _, ?_⟩, ?_⟩
    · exact List.forall_mem_cons.mpr ⟨by decide, isDigit_of_mem_ofNat⟩
    · rw [List.length_cons]
      omega
  next hge =>
    refine ⟨⟨ofNat_ne_nil n, isDigit_of_mem_ofNat⟩, ?_⟩
    have hlength' := List.length_pos_iff.mpr (ofNat_ne_nil (n / 10))
    rw [ofNat_eq, if_neg hge, List.length_append, List.length_singleton]
    omega

/-- The mantissa denotes its digits, with the point behind the first. -/
theorem mantissa_denotes (h : AreDigits ds) :
    Numeral.Mantissa (if ds.length ≤ 1 then ds else ds.take 1 ++ ("." : Text) ++ ds.drop 1)
      (digitsValue ds / 10 ^ (ds.length - 1)) := by
  obtain ⟨u, rest, rfl⟩ := List.exists_cons_of_ne_nil h.ne_nil
  have hu := h.isDigit u List.mem_cons_self
  split
  next hle =>
    obtain rfl : rest = [] := List.length_eq_zero_iff.mp (by rw [List.length_cons] at hle; omega)
    have hvalue : (digitsValue [u] : ℚ) / 10 ^ ([u].length - 1) = digitValue u := by
      rw [List.length_singleton, Nat.sub_self, pow_zero, div_one, digitsValue_cons]
      simp [digitsValue]
    rw [hvalue]
    exact .digit hu
  next hgt =>
    refine .point hu ⟨?_, fun v hv => h.isDigit v (List.mem_cons_of_mem u hv)⟩
    rintro rfl
    exact hgt (Nat.le_refl 1)

/-- Digits are put into scientific notation without changing their value. -/
theorem scientific_denotes (h : AreDigits ds) (power : Int) :
    Numeral.Scientific (scientific ds power) (ofDigits ds power).value := by
  obtain ⟨hexponent, htwo⟩ := areDigits_twoDigits power.natAbs
  have hlength := List.length_pos_iff.mpr h.ne_nil
  have hten : (10 : ℚ) ≠ 0 := by norm_num
  have hvalue : (ofDigits ds power).value = digitsValue ds / 10 ^ (ds.length - 1) * 10 ^ power := by
    rw [ofDigits, value_mk, ← zpow_natCast, div_mul_eq_mul_div, mul_div_assoc, ← zpow_sub₀ hten]
    congr 2
    omega
  rw [hvalue, scientific]
  -- the exponent is written without its sign, which divides or multiplies
  by_cases hneg : power < 0
  · have hpower : (10 : ℚ) ^ power = (10 ^ digitsValue (twoDigits power.natAbs))⁻¹ := by
      rw [digitsValue_twoDigits, ← zpow_natCast, ← zpow_neg]
      congr 1
      omega
    rw [hpower, ← div_eq_mul_inv, if_pos hneg]
    exact .minus (mantissa_denotes h) hexponent htwo
  · have hpower : (10 : ℚ) ^ power = 10 ^ digitsValue (twoDigits power.natAbs) := by
      rw [digitsValue_twoDigits, ← zpow_natCast]
      congr 1
      omega
    rw [hpower, if_neg hneg]
    exact .plus (mantissa_denotes h) hexponent htwo

end Decimal

/-! ## Floats -/

namespace Binary64

/-- The sign in front of a numeral. -/
def sign : Bool → Text
  | true => "-"
  | false => []

variable {e : Fin 2047} {f : Fin fractions}

/-- The numeral of a magnitude whose shortest decimal has the digits `ds`, the first of them at the
power of ten `power`. -/
structure IsNumeral (e : Fin 2047) (f : Fin fractions) (ds : Text) (power : Int)
    (numeral : Text) : Prop where
  shortest : IsShortest e f ds power
  positional : -4 ≤ power ∧ power < 16 → Numeral.Positional numeral (ofDigits ds power).value
  scientific : ¬(-4 ≤ power ∧ power < 16) → Numeral.Scientific numeral (ofDigits ds power).value
  range : -4 ≤ power ∧ power < 16 ↔
    (10 : ℚ) ^ (-4 : Int) ≤ magnitude e f ∧ magnitude e f < 10 ^ 16
  whole : ∀ n : Nat, magnitude e f = n → n < 10 ^ 16 → (ofDigits ds power).value = n

/-- A finite float is zero if both its fields are. -/
theorem isZero_eq_false_iff {negative : Bool} :
    (finite negative e f).isZero = false ↔ ¬(e.val = 0 ∧ f.val = 0) := by
  rw [isZero, Bool.and_eq_false_iff, beq_eq_false_iff_ne, beq_eq_false_iff_ne, not_and_or]

/-- A finite float other than zero has a unit at least. -/
theorem unitsOf_pos (h : ¬(e.val = 0 ∧ f.val = 0)) : 0 < unitsOf e f := by
  rw [unitsOf]
  split
  next he => exact Nat.pos_of_ne_zero fun hf => h ⟨he, hf⟩
  next => exact Nat.mul_pos (Nat.add_pos_left (by decide) _) (Nat.pow_pos (by decide))

theorem magnitude_pos (h : 0 < unitsOf e f) : 0 < magnitude e f := by
  rw [magnitude]
  exact div_pos (Nat.cast_pos.mpr h) (Nat.cast_pos.mpr unitsPerOne_pos)

/-- What is written for a magnitude is a numeral of it. -/
theorem isNumeral_text (hpos : 0 < unitsOf e f) :
    IsNumeral e f (shortest e f).significant (shortest e f).leadingPower (shortest e f).text := by
  have hshortest := isShortest_shortest hpos
  refine ⟨hshortest, fun hin => ?_, fun hout => ?_, ?_, fun n hn hlt => ?_⟩
  · rw [Decimal.text, if_pos hin]
    exact positional_denotes hshortest.areDigits _
  · rw [Decimal.text, if_neg hout]
    exact scientific_denotes hshortest.areDigits _
  · rw [hshortest.neg_four_le_power_iff, ← not_le, hshortest.sixteen_le_power_iff, not_le]
  · have hmagnitude := magnitude_pos hpos
    rw [hn, Nat.cast_pos] at hmagnitude
    exact hshortest.value_eq hmagnitude hn hlt

/-- The sign is written in front. -/
theorem sign_append (negative : Bool) (numeral : Text) :
    (if negative then "-" ++ numeral else numeral) = sign negative ++ numeral := by
  cases negative with
  | false => rfl
  | true => rfl

/-- A finite float other than zero is written as its sign and the numeral of its magnitude. -/
theorem text_eq (negative : Bool) (h : ¬(e.val = 0 ∧ f.val = 0)) :
    (finite negative e f).text = sign negative ++ (shortest e f).text := by
  rw [← sign_append, Binary64.text, if_neg h]

end Binary64

open Binary64

/-- A finite float other than zero is written as its shortest decimal behind its sign, and no float
is written as an integer is. -/
theorem Value.text_float_denotes :
    (∀ (negative : Bool) (e : Fin 2047) (f : Fin fractions),
      (finite negative e f).isZero = false →
        ∃ numeral, (Value.float (finite negative e f)).text = sign negative ++ numeral ∧
          IsNumeral e f (shortest e f).significant (shortest e f).leadingPower numeral) ∧
    ∀ (x : Binary64) (n : Int), (Value.float x).text ≠ (Value.int n).text := by
  refine ⟨fun negative e f hzero => ?_, fun x n htext => ?_⟩
  · rw [isZero_eq_false_iff] at hzero
    exact ⟨(shortest e f).text, text_eq negative hzero, isNumeral_text (unitsOf_pos hzero)⟩
  · obtain ⟨mark, hmem, hmark⟩ := x.exists_mark_mem_text
    have hmem' : mark ∈ Text.ofInt n := by
      change x.text = Text.ofInt n at htext
      rwa [← htext]
    rw [Text.mem_ofInt mark hmem'] at hmark
    cases hmark

/-- The least magnitude behind a minus sign has a single digit and an exponent of three. -/
theorem Value.text_float_denotes_least :
    (finite true ⟨0, by decide⟩ ⟨1, by decide⟩).isZero = false ∧
    (Value.float (finite true ⟨0, by decide⟩ ⟨1, by decide⟩)).text = ("-5e-324" : Text) ∧
    (∃ numeral, (Value.float (finite true ⟨0, by decide⟩ ⟨1, by decide⟩)).text
        = sign true ++ numeral ∧
      IsNumeral ⟨0, by decide⟩ ⟨1, by decide⟩
        (shortest ⟨0, by decide⟩ ⟨1, by decide⟩).significant
        (shortest ⟨0, by decide⟩ ⟨1, by decide⟩).leadingPower numeral) ∧
    (Value.float (finite true ⟨0, by decide⟩ ⟨1, by decide⟩)).text ≠ (Value.int (-5)).text :=
  ⟨rfl, by decide +kernel, Value.text_float_denotes.1 true _ _ rfl, Value.text_float_denotes.2 _ _⟩

end Plume
