import Mathlib.Algebra.Order.Field.Rat
import Mathlib.Data.Nat.Log
import Mathlib.Tactic.FieldSimp
import Mathlib.Tactic.Linarith
import Mathlib.Tactic.Ring
import Plume.Number.Decimal

/-!
# Rounding to binary64 numbers

`ofRatio` rounds a ratio of units. Three facts about it are all that is needed of it elsewhere: it
depends on the ratio only and not on the numbers that it is written with (`ofRatio_congr`), it keeps
what is a binary64 number already (`ofRatio_unitsOf`), and an integer becomes infinite from
`2 ^ 1024 - 2 ^ 970` on (`isInfinite_ofInt_iff`).

The first two carry over to decimals. Decimals of the same value are read as the same number
(`ofDecimal_congr`), and the shortest decimal of a number is read as that number
(`ofDecimal_shortest`), whatever it falls back on if its search fails.
-/

namespace Plume

namespace Binary64

variable {num den num' den' k : Nat}

/-! ## Rounding to whole numbers -/

/-- Rounding does not change if the quotient is expanded. -/
theorem roundHalfEven_mul (hk : 0 < k) (num den : Nat) :
    roundHalfEven (num * k) (den * k) = roundHalfEven num den := by
  have hbelow : 2 * (num % den * k) < den * k ↔ 2 * (num % den) < den := by
    rw [← Nat.mul_assoc, Nat.mul_lt_mul_right hk]
  have habove : den * k < 2 * (num % den * k) ↔ den < 2 * (num % den) := by
    rw [← Nat.mul_assoc, Nat.mul_lt_mul_right hk]
  simp only [roundHalfEven, Nat.mul_div_mul_right num den hk, Nat.mul_mod_mul_right, hbelow, habove]

/-- A whole number is not rounded. -/
theorem roundHalfEven_one (n : Nat) : roundHalfEven n 1 = n := by
  simp [roundHalfEven, Nat.mod_one]

/-- A quotient is rounded to one of the two integers around it. -/
theorem roundHalfEven_eq_or (num den : Nat) :
    roundHalfEven num den = num / den ∨ roundHalfEven num den = num / den + 1 := by
  simp only [roundHalfEven]
  split
  · exact .inl rfl
  · split
    · exact .inr rfl
    · have hparity := Nat.mod_two_eq_zero_or_one (num / den)
      omega

/-- A number is rounded to an even `k` or above from halfway below `k` on. -/
theorem le_roundHalfEven_iff (hden : 0 < den) (hk : k % 2 = 0) :
    k ≤ roundHalfEven num den ↔ 2 * (k * den) ≤ 2 * num + den := by
  have hnum : num / den * den + num % den = num := Nat.div_add_mod' num den
  have hmod := Nat.mod_lt num hden
  have hround := roundHalfEven_eq_or num den
  obtain hle | rfl | hge : k ≤ num / den ∨ k = num / den + 1 ∨ num / den + 2 ≤ k := by omega
  · have hmul := Nat.mul_le_mul_right den hle
    exact ⟨fun _ => by omega, fun _ => by omega⟩
  · rw [Nat.succ_mul (num / den)]
    simp only [roundHalfEven]
    split
    · omega
    · split <;> omega
  · have hmul := Nat.mul_le_mul_right den hge
    rw [Nat.add_mul] at hmul
    exact ⟨fun _ => by omega, fun _ => by omega⟩

/-! ## Rounding ratios -/

/-- A quotient is read as the same float if it is expanded. -/
theorem ofRatio_mul (negative : Bool) (hk : 0 < k) (num den : Nat) :
    ofRatio negative (num * k) (den * k) = ofRatio negative num den := by
  have hscale : ∀ dropped, roundHalfEven (num * k) (den * k * Nat.pow 2 dropped)
      = roundHalfEven num (den * Nat.pow 2 dropped) := by
    intro dropped
    rw [Nat.mul_right_comm, roundHalfEven_mul hk]
  simp only [ofRatio, Nat.mul_div_mul_right num den hk, hscale]

/-- Equal ratios are rounded alike. -/
theorem ofRatio_congr (negative : Bool) (hden : 0 < den) (hden' : 0 < den')
    (h : num * den' = num' * den) : ofRatio negative num den = ofRatio negative num' den' := by
  calc ofRatio negative num den
      = ofRatio negative (num * den') (den * den') := (ofRatio_mul negative hden' num den).symm
    _ = ofRatio negative (num' * den) (den' * den) := by rw [h, Nat.mul_comm den]
    _ = ofRatio negative num' den' := ofRatio_mul negative hden num' den'

/-- The fields of a finite float are the digits of its ordinal. -/
theorem ofOrdinal_eq_finite (negative : Bool) (e : Fin 2047) (f : Fin fractions) :
    ofOrdinal negative (e * fractions + f) = .finite negative e f := by
  have hf : f.val < 4503599627370496 := f.isLt
  have hdiv : (e.val * fractions + f) / fractions = e := by
    show (e.val * 4503599627370496 + f) / 4503599627370496 = e
    omega
  have hmod : (e.val * fractions + f) % fractions = f := by
    show (e.val * 4503599627370496 + f) % 4503599627370496 = f
    omega
  have hlt : (e.val * fractions + f) / fractions < 2047 := by
    rw [hdiv]
    exact e.isLt
  rw [ofOrdinal, dif_pos hlt]
  simp only [hdiv, hmod]

/-- Shifting a number adds to its logarithm. -/
theorem log2_mul_two_pow {m : Nat} (hm : m ≠ 0) (k : Nat) :
    Nat.log2 (m * 2 ^ k) = Nat.log2 m + k := by
  have hne : m * 2 ^ k ≠ 0 := Nat.mul_ne_zero hm (Nat.two_pow_pos k).ne'
  rw [Nat.log2_eq_iff hne, Nat.add_right_comm, pow_add, pow_add]
  exact ⟨Nat.mul_le_mul_right _ (Nat.log2_self_le hm),
    Nat.mul_lt_mul_of_pos_right Nat.lt_log2_self (Nat.two_pow_pos k)⟩

/-- The units of a number are a significand with some zeros behind it, as many as `ofRatio` drops
bits. -/
theorem unitsOf_eq (e : Fin 2047) (f : Fin fractions) :
    ∃ significand, unitsOf e f = significand * 2 ^ (Nat.log2 (unitsOf e f) - 52)
      ∧ (Nat.log2 (unitsOf e f) - 52) * fractions + significand = e * fractions + f := by
  have hf : f.val < 2 ^ 52 := f.isLt
  by_cases he : e.val = 0
  -- without an exponent nothing is dropped
  · have hunits : unitsOf e f = f := by rw [unitsOf, if_pos he]
    have hlog : Nat.log2 f.val < 53 := by
      by_cases hzero : f.val = 0
      · rw [hzero]
        decide
      · exact (Nat.log2_lt hzero).mpr (by omega)
    have hdropped : Nat.log2 f.val - 52 = 0 := by omega
    exact ⟨f, by rw [hunits, hdropped, pow_zero, mul_one], by rw [hunits, hdropped, he]⟩
  -- with one, its bits but one are dropped, and the significand has its leading bit
  · have hunits : unitsOf e f = (2 ^ 52 + f) * 2 ^ (e.val - 1) := by
      rw [unitsOf, if_neg he]
      rfl
    have hlog : Nat.log2 (unitsOf e f) = 52 + (e.val - 1) := by
      have hsignificand : Nat.log2 (2 ^ 52 + f.val) = 52 :=
        (Nat.log2_eq_iff (by omega)).mpr ⟨by omega, by omega⟩
      rw [hunits, log2_mul_two_pow (by omega), hsignificand]
    have hdropped : Nat.log2 (unitsOf e f) - 52 = e.val - 1 := by omega
    refine ⟨2 ^ 52 + f, by rw [hdropped, hunits], ?_⟩
    rw [hdropped]
    show (e.val - 1) * 4503599627370496 + (2 ^ 52 + f) = e.val * 4503599627370496 + f
    omega

/-- A number is not rounded. -/
theorem ofRatio_unitsOf (negative : Bool) (hden : 0 < den) (e : Fin 2047) (f : Fin fractions) :
    ofRatio negative (unitsOf e f * den) den = .finite negative e f := by
  obtain ⟨significand, hunits, hordinal⟩ := unitsOf_eq e f
  have hround : roundHalfEven (unitsOf e f) (1 * 2 ^ (Nat.log2 (unitsOf e f) - 52))
      = significand := by
    have hexact : ∀ units dropped, units = significand * 2 ^ dropped →
        roundHalfEven units (1 * 2 ^ dropped) = significand := by
      rintro _ dropped rfl
      rw [roundHalfEven_mul (Nat.two_pow_pos dropped), roundHalfEven_one]
    exact hexact _ _ hunits
  calc ofRatio negative (unitsOf e f * den) den
      = ofRatio negative (unitsOf e f * den) (1 * den) := by rw [Nat.one_mul]
    _ = ofRatio negative (unitsOf e f) 1 := ofRatio_mul negative hden _ 1
    _ = ofOrdinal negative (e * fractions + f) := by
      simp only [ofRatio, Nat.div_one, Nat.pow_eq, hround, hordinal]
    _ = .finite negative e f := ofOrdinal_eq_finite negative e f

/-! ## Infinity -/

/-- Beyond the last finite ordinal there is only infinity. -/
theorem isInfinite_ofOrdinal (negative : Bool) (k : Nat) :
    (ofOrdinal negative k).isInfinite = true ↔ 2047 * 2 ^ 52 ≤ k := by
  have hdiv : k / fractions < 2047 ↔ k < 2047 * 2 ^ 52 := Nat.div_lt_iff_lt_mul (by decide)
  rw [ofOrdinal]
  split
  next hlt => simpa [isInfinite] using hdiv.mp hlt
  next hge => simpa [isInfinite, hdiv] using hge

theorem unitsPerOne_eq : unitsPerOne = 2 ^ 52 * 2 ^ 1022 := by decide +kernel

/-- What an integer is rounded to: the number of its bits gives the exponent, and its first 53 bits
give the significand, which may be rounded up to the next power of two. -/
theorem ofInt_eq_ofOrdinal {n : Int} (hn : n ≠ 0) :
    ofInt n = ofOrdinal (n < 0) ((Nat.log2 n.natAbs + 1022) * 2 ^ 52
      + roundHalfEven (n.natAbs * 2 ^ 52) (2 ^ Nat.log2 n.natAbs)) := by
  have hne : n.natAbs ≠ 0 := Int.natAbs_ne_zero.mpr hn
  have hunits : n.natAbs * unitsPerOne = n.natAbs * 2 ^ 52 * 2 ^ 1022 := by
    rw [Nat.mul_assoc, unitsPerOne_eq]
  have hdropped : Nat.log2 (n.natAbs * unitsPerOne) - 52 = Nat.log2 n.natAbs + 1022 := by
    rw [hunits, Nat.mul_assoc, ← pow_add, log2_mul_two_pow hne]
    omega
  have hround : roundHalfEven (n.natAbs * unitsPerOne) (1 * 2 ^ (Nat.log2 n.natAbs + 1022))
      = roundHalfEven (n.natAbs * 2 ^ 52) (2 ^ Nat.log2 n.natAbs) := by
    rw [hunits, Nat.one_mul, pow_add, roundHalfEven_mul (Nat.two_pow_pos 1022)]
  have hfractions : fractions = 2 ^ 52 := rfl
  simp only [ofInt, ofRatio, Nat.div_one, Nat.pow_eq, hdropped, hround, hfractions]

/-- An integer is too large for a finite number from halfway between the greatest one and the power
of two behind it on. -/
theorem isInfinite_ofInt_iff (n : Int) :
    (ofInt n).isInfinite = true ↔ 2 ^ 1024 - 2 ^ 970 ≤ n.natAbs := by
  by_cases hn : n = 0
  · subst hn
    have hpow : (2 : Nat) ^ 970 < 2 ^ 1024 := by decide +kernel
    have hfinite : (ofInt 0).isInfinite = false := by decide +kernel
    rw [hfinite, Int.natAbs_zero]
    constructor
    · rintro ⟨⟩
    · intro hle
      omega
  have hne : n.natAbs ≠ 0 := Int.natAbs_ne_zero.mpr hn
  rw [ofInt_eq_ofOrdinal hn, isInfinite_ofOrdinal]
  have hlow := Nat.log2_self_le hne
  have hhigh : n.natAbs < 2 ^ Nat.log2 n.natAbs * 2 := Nat.lt_log2_self
  have hpos := Nat.two_pow_pos (Nat.log2 n.natAbs)
  have hround (k : Nat) (hk : k % 2 = 0) : k ≤ roundHalfEven (n.natAbs * 2 ^ 52) _ ↔ _ :=
    le_roundHalfEven_iff hpos hk
  generalize n.natAbs = m at *
  generalize Nat.log2 m = l at *
  generalize roundHalfEven (m * 2 ^ 52) (2 ^ l) = significand at *
  have hleast := (hround (2 ^ 52) (by decide)).mpr (by omega)
  have hmost : ¬ 2 * 2 ^ 52 + 2 ≤ significand := by
    rw [hround _ (by decide)]
    omega
  have hcarry := hround (2 * 2 ^ 52) (by decide)
  -- all other powers of two are multiples of `2 ^ 970`
  obtain ⟨unit, hunit⟩ : ∃ unit, (2 : Nat) ^ 970 = unit := ⟨_, rfl⟩
  have hpow : ∀ j k : Nat, j = k + 970 → 2 ^ j = 2 ^ k * unit := by
    rintro _ k rfl
    rw [pow_add, hunit]
  have hmono : ∀ i j : Nat, i ≤ j → 2 ^ i ≤ 2 ^ j := fun i j => Nat.pow_le_pow_right Nat.two_pos
  have hunitPos : 0 < unit := by
    rw [← hunit]
    positivity
  have h1022 := hpow 1022 52 rfl
  have h1024 := hpow 1024 54 rfl
  rw [h1024, hunit]
  obtain hl | rfl | hl : l ≤ 1022 ∨ l = 1023 ∨ 1024 ≤ l := by omega
  · have hle := (hmono l 1022 hl).trans_eq h1022
    omega
  · have h1023 := hpow 1023 53 rfl
    omega
  · have hle := h1024.symm.trans_le (hmono 1024 l hl)
    omega

/-! ## Whole numbers that are not rounded -/

/-- Shifting a number moves its leading bit to the place of the hidden bit. -/
theorem shift_bounds {m : Nat} (hpos : 0 < m) (hlog : Nat.log2 m ≤ 52) :
    2 ^ 52 ≤ m * 2 ^ (52 - Nat.log2 m) ∧ m * 2 ^ (52 - Nat.log2 m) < 2 ^ 53 := by
  have hpow : 2 ^ Nat.log2 m * 2 ^ (52 - Nat.log2 m) = 2 ^ 52 := by
    rw [← pow_add, Nat.add_sub_cancel' hlog]
  constructor
  · calc 2 ^ 52 = 2 ^ Nat.log2 m * 2 ^ (52 - Nat.log2 m) := hpow.symm
      _ ≤ m * 2 ^ (52 - Nat.log2 m) := Nat.mul_le_mul_right _ (Nat.log2_self_le hpos.ne')
  · calc m * 2 ^ (52 - Nat.log2 m)
        < 2 ^ (Nat.log2 m + 1) * 2 ^ (52 - Nat.log2 m) :=
          Nat.mul_lt_mul_of_pos_right Nat.lt_log2_self (Nat.two_pow_pos _)
      _ = 2 * 2 ^ 52 := by rw [pow_succ', mul_assoc, hpow]

/-- A positive whole number up to `2 ^ 53` is a binary64 number. -/
theorem exists_unitsOf_eq {m : Nat} (hpos : 0 < m) (hle : m ≤ 2 ^ 53) :
    ∃ (e : Fin 2047) (f : Fin fractions), unitsOf e f = m * unitsPerOne := by
  by_cases hlt : m < 2 ^ 53
  -- shifted until its leading bit is the hidden one, `m` is the significand
  · have hlog : Nat.log2 m ≤ 52 := Nat.lt_succ_iff.mp ((Nat.log2_lt hpos.ne').mpr hlt)
    obtain ⟨hlow, hhigh⟩ := shift_bounds hpos hlog
    have hf : m * 2 ^ (52 - Nat.log2 m) - 2 ^ 52 < fractions := by
      show _ < 2 ^ 52
      omega
    refine ⟨⟨Nat.log2 m + 1023, by omega⟩, ⟨m * 2 ^ (52 - Nat.log2 m) - 2 ^ 52, hf⟩, ?_⟩
    have hsignificand : fractions + (m * 2 ^ (52 - Nat.log2 m) - 2 ^ 52)
        = m * 2 ^ (52 - Nat.log2 m) := Nat.add_sub_cancel' hlow
    have hpow : 2 ^ (52 - Nat.log2 m) * 2 ^ (Nat.log2 m + 1022) = 2 ^ 52 * 2 ^ 1022 := by
      have hexponent : 52 - Nat.log2 m + (Nat.log2 m + 1022) = 52 + 1022 := by omega
      rw [← pow_add, ← pow_add, hexponent]
    rw [unitsOf, if_neg (Nat.succ_ne_zero _), hsignificand, unitsPerOne_eq, ← hpow, Nat.mul_assoc]
    rfl
  -- the bound itself has one bit more, all of them zero
  · obtain rfl : m = 2 ^ 53 := by omega
    exact ⟨⟨1076, by decide⟩, ⟨0, by decide⟩, by decide +kernel⟩

end Binary64

/-! ## Decimals -/

/-- The number that a decimal is. -/
def Decimal.value (d : Decimal) : ℚ := d.digits * 10 ^ d.exponent

/-- Zeros at the end of the digits may be moved into the exponent. -/
theorem Decimal.value_mul_pow (digits k : Nat) (exponent : Int) :
    Decimal.value ⟨digits * 10 ^ k, exponent⟩ = Decimal.value ⟨digits, exponent + k⟩ := by
  rw [Decimal.value, Decimal.value, zpow_add₀ (by norm_num), zpow_natCast]
  push_cast
  ring

namespace Binary64

/-- A decimal with a negative exponent is a quotient by a power of ten. -/
theorem ofDecimal_neg (negative : Bool) (digits : Nat) {n : Nat} (hn : 0 < n) :
    ofDecimal negative ⟨digits, -n⟩ = ofRatio negative (digits * unitsPerOne) (10 ^ n) := by
  have hexponent : ¬ (0 : Int) ≤ -n := by omega
  rw [ofDecimal, if_neg hexponent]
  simp only [neg_neg, Int.toNat_natCast, Nat.pow_eq]

/-- A decimal is read by rounding its value. -/
theorem exists_ofDecimal_eq_ofRatio (d : Decimal) :
    ∃ num den : Nat, 0 < den ∧ d.value = num / den
      ∧ ∀ negative, ofDecimal negative d = ofRatio negative (num * unitsPerOne) den := by
  obtain ⟨digits, exponent⟩ := d
  by_cases hexponent : 0 ≤ exponent
  · lift exponent to Nat using hexponent
    refine ⟨digits * 10 ^ exponent, 1, Nat.one_pos, ?_, ?_⟩
    · simp [Decimal.value]
    · intro negative
      rw [ofDecimal, if_pos (Int.natCast_nonneg exponent), Int.toNat_natCast, Nat.pow_eq]
  · obtain ⟨n, rfl⟩ : ∃ n : Nat, exponent = -n := ⟨exponent.natAbs, by omega⟩
    refine ⟨digits, 10 ^ n, by positivity, ?_, ?_⟩
    · simp [Decimal.value, div_eq_mul_inv]
    · intro negative
      exact ofDecimal_neg negative digits (by omega)

/-- Decimals of the same value are read as the same number. -/
theorem ofDecimal_congr (negative : Bool) {d d' : Decimal} (h : d.value = d'.value) :
    ofDecimal negative d = ofDecimal negative d' := by
  obtain ⟨num, den, hden, hvalue, hread⟩ := exists_ofDecimal_eq_ofRatio d
  obtain ⟨num', den', hden', hvalue', hread'⟩ := exists_ofDecimal_eq_ofRatio d'
  have hcross : num * den' = num' * den := by
    rw [hvalue, hvalue', div_eq_div_iff (by positivity) (by positivity)] at h
    exact_mod_cast h
  rw [hread, hread']
  refine ofRatio_congr negative hden hden' ?_
  rw [Nat.mul_right_comm, hcross, Nat.mul_right_comm]

/-- No digits are read as zero, whatever the exponent. -/
theorem ofDecimal_zero (negative : Bool) {d : Decimal} (h : d.digits = 0) :
    ofDecimal negative d = zero negative := by
  have hvalue : d.value = Decimal.value ⟨0, 0⟩ := by simp [Decimal.value, h]
  rw [ofDecimal_congr negative hvalue]
  cases negative <;> decide +kernel

/-- The sign plays no part in rounding. -/
theorem ofRatio_of_finite {num den : Nat} {e : Fin 2047} {f : Fin fractions}
    (h : ofRatio false num den = .finite false e f) (negative : Bool) :
    ofRatio negative num den = .finite negative e f := by
  simp only [ofRatio, ofOrdinal] at h ⊢
  split at h
  next hlt =>
    rw [dif_pos hlt]
    cases h
    rfl
  · cases h

/-- A sign does not change how a decimal is read. -/
theorem ofDecimal_of_finite {d : Decimal} {e : Fin 2047} {f : Fin fractions}
    (h : ofDecimal false d = .finite false e f) (negative : Bool) :
    ofDecimal negative d = .finite negative e f := by
  obtain ⟨num, den, -, -, hread⟩ := exists_ofDecimal_eq_ofRatio d
  rw [hread] at h ⊢
  exact ofRatio_of_finite h negative

/-- A neighbour that is read back is read as the magnitude. -/
theorem ofDecimal_readBack? {magnitude : Binary64} {exponent : Int} {num den : Nat} {d : Decimal}
    (h : Decimal.readBack? magnitude exponent num den = some d) :
    ofDecimal false d = magnitude := by
  simp only [Decimal.readBack?] at h
  split at h
  next hbelow =>
    split at h
    next habove =>
      rw [← Option.some.inj h]
      obtain hround | hround := roundHalfEven_eq_or num den
      · rw [hround, hbelow]
      · rw [hround, habove]
    · rw [← Option.some.inj h, hbelow]
  · split at h
    next habove => rw [← Option.some.inj h, habove]
    · cases h

/-- All the digits of a magnitude are read as it. -/
theorem ofDecimal_full (e : Fin 2047) (f : Fin fractions) :
    ofDecimal false (Decimal.full (unitsOf e f)) = .finite false e f := by
  have hpow : Nat.pow 5 1074 * unitsPerOne = 10 ^ 1074 := by decide +kernel
  have hread := ofDecimal_neg false (unitsOf e f * Nat.pow 5 1074) (n := 1074) (by decide)
  rw [Nat.mul_assoc, hpow, ofRatio_unitsOf false (by positivity) e f] at hread
  exact hread

/-- The shortest decimal of a number is read as the number. -/
theorem ofDecimal_shortest (e : Fin 2047) (f : Fin fractions) :
    ofDecimal false (Decimal.shortest e f) = .finite false e f := by
  simp only [Decimal.shortest]
  cases hfind : (List.range' 1 17).findSome?
      (Decimal.neighbour? (.finite false e f) (unitsOf e f)) with
  | none =>
    rw [Option.getD_none]
    exact ofDecimal_full e f
  | some d =>
    obtain ⟨count, -, hcount⟩ := List.exists_of_findSome?_eq_some hfind
    rw [Option.getD_some]
    exact ofDecimal_readBack? hcount

end Binary64

end Plume
