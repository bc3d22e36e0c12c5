import Mathlib.Algebra.Order.Field.Basic
import Mathlib.Algebra.Order.Ring.Abs
import Mathlib.Data.Nat.Cast.Order.Field
import Mathlib.Tactic.Positivity
import Plume.Proofs.Rounding

/-!
# Rounding keeps the order of numbers

The magnitudes of binary64 numbers stand in increasing order, and rounding gives the place of a
number among them (`ordinal`, `nearest`). Of two numbers the greater is rounded to the same place or
to a later one (`nearest_mono`), so whatever lies between a binary64 number and a decimal that is
read as it is read as it as well (`ofDecimal_of_between`).

Two neighbours on a decimal grid around a binary64 number are both read as other numbers only if
they are far apart: on a grid that is finer than `10 ^ -16` of the number, one of the two is read as
the number (`nearest_of_grid`). This is why seventeen digits are enough.
-/

namespace Plume

/-- A decimal has no sign. -/
theorem Decimal.value_nonneg (d : Decimal) : 0 ≤ d.value :=
  mul_nonneg (Nat.cast_nonneg _) (zpow_nonneg (by norm_num) _)

namespace Binary64

variable {num den num' den' k : Nat}

/-! ## Whole numbers -/

/-- Rounding to a whole number is off by a half at most. -/
theorem abs_roundHalfEven_sub_le (num : Nat) (hden : 0 < den) :
    |(roundHalfEven num den : ℚ) - num / den| ≤ 1 / 2 := by
  have hden' : (0 : ℚ) < den := by exact_mod_cast hden
  have hnum : (num : ℚ) = (num / den : Nat) * den + (num % den : Nat) := by
    exact_mod_cast (Nat.div_add_mod' num den).symm
  have hratio : (num : ℚ) / den = (num / den : Nat) + (num % den : Nat) / den := by
    rw [div_eq_iff hden'.ne', add_mul, div_mul_cancel₀ _ hden'.ne', ← hnum]
  have hmod : ((num % den : Nat) : ℚ) / den < 1 := by
    rw [div_lt_one hden']
    exact_mod_cast Nat.mod_lt num hden
  have hnonneg : (0 : ℚ) ≤ ((num % den : Nat) : ℚ) / den := by positivity
  rw [hratio, abs_le]
  simp only [roundHalfEven]
  split
  -- below the half the floor is taken, and is less than a half away
  next hbelow =>
    have hhalf : ((num % den : Nat) : ℚ) / den < 1 / 2 := by
      rw [div_lt_iff₀ hden']
      have hcast : 2 * ((num % den : Nat) : ℚ) < den := by exact_mod_cast hbelow
      linarith
    constructor <;> linarith
  next hbelow =>
    have hhalf : 1 / 2 ≤ ((num % den : Nat) : ℚ) / den := by
      rw [le_div_iff₀ hden']
      have hcast : (den : ℚ) ≤ 2 * (num % den : Nat) := by exact_mod_cast Nat.not_lt.mp hbelow
      linarith
    split
    -- above the half the next integer is
    next habove =>
      push_cast
      constructor <;> linarith
    -- at the half itself either of the two is a half away
    next habove =>
      have htie : ((num % den : Nat) : ℚ) / den ≤ 1 / 2 := by
        rw [div_le_iff₀ hden']
        have hcast : 2 * ((num % den : Nat) : ℚ) ≤ den := by exact_mod_cast Nat.not_lt.mp habove
        linarith
      obtain hparity | hparity := Nat.mod_two_eq_zero_or_one (num / den) <;> rw [hparity] <;>
        push_cast <;> constructor <;> linarith

/-- What is less than half above an integer is not rounded beyond it. -/
theorem roundHalfEven_le_of_lt (hden : 0 < den) (h : (num : ℚ) / den < k + 1 / 2) :
    roundHalfEven num den ≤ k := by
  have herror := abs_le.mp (abs_roundHalfEven_sub_le num hden)
  have hlt : (roundHalfEven num den : ℚ) < k + 1 := by linarith
  exact Nat.lt_succ_iff.mp (by exact_mod_cast hlt)

/-- What is less than half below an integer is not rounded short of it. -/
theorem le_roundHalfEven_of_lt (hden : 0 < den) (h : (k : ℚ) - 1 / 2 < num / den) :
    k ≤ roundHalfEven num den := by
  have herror := abs_le.mp (abs_roundHalfEven_sub_le num hden)
  have hlt : (k : ℚ) < roundHalfEven num den + 1 := by linarith
  exact Nat.lt_succ_iff.mp (by exact_mod_cast hlt)

/-- No whole number is nearer than the rounded one. -/
theorem abs_roundHalfEven_sub_le_abs (num : Nat) (hden : 0 < den) (s : Nat) :
    |(roundHalfEven num den : ℚ) - num / den| ≤ |(s : ℚ) - num / den| := by
  have herror := abs_roundHalfEven_sub_le num hden
  have hbounds := abs_le.mp herror
  obtain hlt | rfl | hlt := Nat.lt_trichotomy s (roundHalfEven num den)
  · have hcast : (s : ℚ) + 1 ≤ roundHalfEven num den := by exact_mod_cast hlt
    have hneg := neg_abs_le ((s : ℚ) - num / den)
    linarith
  · exact le_rfl
  · have hcast : (roundHalfEven num den : ℚ) + 1 ≤ s := by exact_mod_cast hlt
    have hle := le_abs_self ((s : ℚ) - num / den)
    linarith

/-- One quotient is rounded in one way, however it is written. -/
theorem roundHalfEven_congr (hden : 0 < den) (hden' : 0 < den') (h : num * den' = num' * den) :
    roundHalfEven num den = roundHalfEven num' den' := by
  rw [← roundHalfEven_mul hden' num den, h, Nat.mul_comm den, roundHalfEven_mul hden]

/-- Rounding keeps the order. -/
theorem roundHalfEven_mono (hden : 0 < den) (hden' : 0 < den')
    (h : (num : ℚ) / den ≤ num' / den') : roundHalfEven num den ≤ roundHalfEven num' den' := by
  obtain heq | hlt := eq_or_lt_of_le h
  · rw [div_eq_div_iff (by positivity) (by positivity)] at heq
    exact (roundHalfEven_congr hden hden' (by exact_mod_cast heq)).le
  · -- two different numbers are not rounded past each other
    by_contra hcontra
    have herror := abs_le.mp (abs_roundHalfEven_sub_le num hden)
    have herror' := abs_le.mp (abs_roundHalfEven_sub_le num' hden')
    have hcast : (roundHalfEven num' den' : ℚ) + 1 ≤ roundHalfEven num den := by
      exact_mod_cast Nat.not_le.mp hcontra
    linarith

/-! ## Places among the magnitudes -/

/-- The place of the magnitude nearest to `num / den` units. -/
def ordinal (num den : Nat) : Nat :=
  let dropped := Nat.log2 (num / den) - 52
  dropped * fractions + roundHalfEven num (den * Nat.pow 2 dropped)

theorem ofRatio_eq_ofOrdinal (negative : Bool) (num den : Nat) :
    ofRatio negative num den = ofOrdinal negative (ordinal num den) := rfl

/-- The fields of a finite float are the digits of its ordinal. -/
theorem ofOrdinal_eq_finite_iff (negative : Bool) {e : Fin 2047} {f : Fin fractions} :
    ofOrdinal negative k = .finite negative e f ↔ k = e * fractions + f := by
  constructor
  · intro h
    unfold ofOrdinal at h
    split at h
    · cases h
      exact (Nat.div_add_mod' k fractions).symm
    · cases h
  · rintro rfl
    exact ofOrdinal_eq_finite negative e f

/-- The ordinal counts what is dropped, and then the significand. -/
theorem ordinal_eq (num : Nat) {dropped : Nat} (h : Nat.log2 (num / den) - 52 = dropped) :
    ordinal num den = dropped * 2 ^ 52 + roundHalfEven num (den * 2 ^ dropped) := by
  subst h
  rfl

theorem div_pow_eq (num den dropped : Nat) :
    (num : ℚ) / (den * 2 ^ dropped : Nat) = num / den / 2 ^ dropped := by
  push_cast
  rw [div_div]

/-- A quotient with so many bits to drop is below the next power of two. -/
theorem div_lt_pow_of_log2 {dropped : Nat} (hden : 0 < den)
    (h : Nat.log2 (num / den) - 52 ≤ dropped) : (num : ℚ) / den < 2 ^ 53 * 2 ^ dropped := by
  have hfloor : num / den < 2 ^ (53 + dropped) :=
    Nat.lt_log2_self.trans_le (Nat.pow_le_pow_right Nat.two_pos (by omega))
  rw [div_lt_iff₀ (by exact_mod_cast hden), ← pow_add]
  exact_mod_cast (Nat.div_lt_iff_lt_mul hden).mp hfloor

/-- A quotient with so many bits to drop is not below its power of two. -/
theorem pow_le_div_of_log2 {dropped : Nat} (hden : 0 < den) (hdropped : 0 < dropped)
    (h : dropped ≤ Nat.log2 (num / den) - 52) : 2 ^ 52 * 2 ^ dropped ≤ (num : ℚ) / den := by
  have hne : num / den ≠ 0 := by
    intro hzero
    rw [hzero, Nat.log2_zero] at h
    omega
  have hfloor : 2 ^ (52 + dropped) ≤ num / den :=
    (Nat.pow_le_pow_right Nat.two_pos (by omega)).trans (Nat.log2_self_le hne)
  rw [le_div_iff₀ (by exact_mod_cast hden), ← pow_add]
  exact_mod_cast (Nat.le_div_iff_mul_le hden).mp hfloor

theorem floor_le_floor (hden' : 0 < den') (h : (num : ℚ) / den ≤ num' / den') :
    num / den ≤ num' / den' := by
  rw [Nat.le_div_iff_mul_le hden']
  have hcast : ((num / den : Nat) : ℚ) ≤ num / den := Nat.cast_div_le
  rw [le_div_iff₀ (by exact_mod_cast hden')] at h
  have hmul := mul_le_mul_of_nonneg_right hcast (Nat.cast_nonneg (α := ℚ) den')
  exact_mod_cast hmul.trans h

theorem log2_mono {m n : Nat} (h : m ≤ n) : Nat.log2 m ≤ Nat.log2 n := by
  rw [Nat.log2_eq_log_two, Nat.log2_eq_log_two]
  exact Nat.log_mono_right h

/-- The significand of a rounded number has 53 bits, or is the power of two behind them. -/
theorem roundHalfEven_le_of_log2 {dropped : Nat} (hden : 0 < den)
    (h : Nat.log2 (num / den) - 52 = dropped) :
    roundHalfEven num (den * 2 ^ dropped) ≤ 2 ^ 53 := by
  have hpow : (0 : ℚ) < 2 ^ dropped := by positivity
  have hbound := div_lt_pow_of_log2 hden h.le
  refine roundHalfEven_le_of_lt (Nat.mul_pos hden (Nat.two_pow_pos dropped)) ?_
  rw [div_pow_eq, div_lt_iff₀ hpow]
  push_cast
  linarith

/-- The significand has no fewer bits where bits are dropped. -/
theorem le_roundHalfEven_of_log2 {dropped : Nat} (hden : 0 < den) (hdropped : 0 < dropped)
    (h : Nat.log2 (num / den) - 52 = dropped) :
    2 ^ 52 ≤ roundHalfEven num (den * 2 ^ dropped) := by
  have hpow : (0 : ℚ) < 2 ^ dropped := by positivity
  have hbound := pow_le_div_of_log2 hden hdropped h.ge
  refine le_roundHalfEven_of_lt (Nat.mul_pos hden (Nat.two_pow_pos dropped)) ?_
  rw [div_pow_eq, lt_div_iff₀ hpow]
  push_cast
  linarith

/-- A greater number has no earlier place. -/
theorem ordinal_mono (hden : 0 < den) (hden' : 0 < den') (h : (num : ℚ) / den ≤ num' / den') :
    ordinal num den ≤ ordinal num' den' := by
  have hlog := log2_mono (floor_le_floor hden' h)
  obtain ⟨dropped, hdropped⟩ : ∃ dropped, Nat.log2 (num / den) - 52 = dropped := ⟨_, rfl⟩
  obtain ⟨dropped', hdropped'⟩ : ∃ dropped, Nat.log2 (num' / den') - 52 = dropped := ⟨_, rfl⟩
  rw [ordinal_eq num hdropped, ordinal_eq num' hdropped']
  obtain rfl | hlt : dropped = dropped' ∨ dropped < dropped' := by omega
  · have hpow := Nat.two_pow_pos dropped
    have hscaled : (num : ℚ) / (den * 2 ^ dropped : Nat) ≤ num' / (den' * 2 ^ dropped : Nat) := by
      rw [div_pow_eq, div_pow_eq]
      gcongr
    have hround := roundHalfEven_mono (Nat.mul_pos hden hpow) (Nat.mul_pos hden' hpow) hscaled
    omega
  · -- the greatest significand of one exponent is the least of the next
    have hmost := roundHalfEven_le_of_log2 hden hdropped
    have hleast := le_roundHalfEven_of_log2 hden' (by omega) hdropped'
    have hmul : (dropped + 1) * 2 ^ 52 ≤ dropped' * 2 ^ 52 := Nat.mul_le_mul_right _ hlt
    omega

/-! ## Numbers and their places -/

/-- The place of the magnitude nearest to a number that is not negative. -/
def nearest (q : ℚ) : Nat := ordinal (q.num.toNat * unitsPerOne) q.den

/-- The magnitude with the given fields. -/
def magnitude (e : Fin 2047) (f : Fin fractions) : ℚ := unitsOf e f / unitsPerOne

theorem unitsPerOne_pos : 0 < unitsPerOne := by decide +kernel

variable {p q : ℚ} {e : Fin 2047} {f : Fin fractions} {d d' : Decimal}

/-- The nearest ordinal does not depend on how a number is written as a quotient. -/
theorem nearest_eq (hden : 0 < den) (h : q = num / den) :
    nearest q = ordinal (num * unitsPerOne) den := by
  have hnum : (q.num.toNat : ℚ) = q.num := by
    have hnonneg : 0 ≤ q.num := by
      rw [Rat.num_nonneg, h]
      positivity
    exact_mod_cast Int.toNat_of_nonneg hnonneg
  have hsame : ((q.num.toNat * unitsPerOne : Nat) : ℚ) / q.den
      = (num * unitsPerOne : Nat) / den := by
    rw [Nat.cast_mul, Nat.cast_mul, hnum, mul_div_right_comm, Rat.num_div_den, h,
      mul_div_right_comm]
  exact le_antisymm (ordinal_mono q.den_pos hden hsame.le) (ordinal_mono hden q.den_pos hsame.ge)

/-- A number that is not negative is a quotient of natural numbers. -/
theorem exists_ratio (h : 0 ≤ q) : ∃ num den : Nat, 0 < den ∧ q = num / den := by
  refine ⟨q.num.toNat, q.den, q.den_pos, ?_⟩
  have hnum : (q.num.toNat : ℚ) = q.num := by
    exact_mod_cast Int.toNat_of_nonneg (Rat.num_nonneg.mpr h)
  rw [hnum, Rat.num_div_den]

/-- Of two numbers the greater is rounded to the same place or to a later one. -/
theorem nearest_mono (hp : 0 ≤ p) (h : p ≤ q) : nearest p ≤ nearest q := by
  obtain ⟨num, den, hden, hratio⟩ := exists_ratio hp
  obtain ⟨num', den', hden', hratio'⟩ := exists_ratio (hp.trans h)
  rw [nearest_eq hden hratio, nearest_eq hden' hratio']
  refine ordinal_mono hden hden' ?_
  rw [Nat.cast_mul, Nat.cast_mul, mul_div_right_comm, mul_div_right_comm, ← hratio, ← hratio']
  exact mul_le_mul_of_nonneg_right h (Nat.cast_nonneg _)

/-- A decimal is read as the float with the nearest ordinal. -/
theorem ofDecimal_eq_ofOrdinal (negative : Bool) (d : Decimal) :
    ofDecimal negative d = ofOrdinal negative (nearest d.value) := by
  obtain ⟨num, den, hden, hvalue, hread⟩ := exists_ofDecimal_eq_ofRatio d
  rw [hread, nearest_eq hden hvalue, ofRatio_eq_ofOrdinal]

/-- A decimal is read as the finite float whose ordinal is the nearest to it. -/
theorem ofDecimal_eq_finite_iff :
    ofDecimal false d = .finite false e f ↔ nearest d.value = e * fractions + f := by
  rw [ofDecimal_eq_ofOrdinal, ofOrdinal_eq_finite_iff]

/-- A magnitude is nearest to itself. -/
theorem nearest_magnitude (e : Fin 2047) (f : Fin fractions) :
    nearest (magnitude e f) = e * fractions + f := by
  have hratio : magnitude e f = (unitsOf e f : ℚ) / unitsPerOne := rfl
  rw [nearest_eq unitsPerOne_pos hratio, ← ofOrdinal_eq_finite_iff false, ← ofRatio_eq_ofOrdinal,
    ofRatio_unitsOf false unitsPerOne_pos]

theorem magnitude_nonneg (e : Fin 2047) (f : Fin fractions) : 0 ≤ magnitude e f :=
  div_nonneg (Nat.cast_nonneg _) (Nat.cast_nonneg _)

/-- What lies between a number and a decimal that is read as it is read as it as well. -/
theorem ofDecimal_of_between (h : ofDecimal false d' = .finite false e f)
    (hbetween : magnitude e f ≤ d.value ∧ d.value ≤ d'.value
      ∨ d'.value ≤ d.value ∧ d.value ≤ magnitude e f) :
    ofDecimal false d = .finite false e f := by
  rw [ofDecimal_eq_finite_iff, ← nearest_magnitude] at h ⊢
  rcases hbetween with ⟨hlow, hhigh⟩ | ⟨hlow, hhigh⟩
  · have hle := nearest_mono (magnitude_nonneg e f) hlow
    have hge := nearest_mono d.value_nonneg hhigh
    omega
  · have hle := nearest_mono d'.value_nonneg hlow
    have hge := nearest_mono d.value_nonneg hhigh
    omega

/-! ## Near numbers -/

/-- A number less than half a step above a magnitude has no later place than it. -/
theorem ordinal_le_of_near {significand dropped : Nat} (hden : 0 < den)
    (hmost : significand < 2 ^ 53) (hleast : 0 < dropped → 2 ^ 52 ≤ significand)
    (h : (num : ℚ) / den < (significand + 1 / 2) * 2 ^ dropped) :
    ordinal num den ≤ dropped * 2 ^ 52 + significand := by
  have hpow : (0 : ℚ) < 2 ^ dropped := by positivity
  obtain ⟨dropped', hdropped'⟩ : ∃ dropped, Nat.log2 (num / den) - 52 = dropped := ⟨_, rfl⟩
  -- no more bits are dropped than for the significand
  have hle : dropped' ≤ dropped := by
    by_contra hlt
    have hbound := pow_le_div_of_log2 hden (Nat.succ_pos dropped)
      (by omega : dropped + 1 ≤ Nat.log2 (num / den) - 52)
    have hcast : (significand : ℚ) ≤ 2 ^ 53 - 1 := by
      have hsucc : (significand : ℚ) + 1 ≤ 2 ^ 53 := by exact_mod_cast hmost
      linarith
    have hmul := mul_le_mul_of_nonneg_right hcast hpow.le
    rw [pow_succ (2 : ℚ) dropped] at hbound
    linarith
  rw [ordinal_eq num hdropped']
  obtain rfl | hlt : dropped' = dropped ∨ dropped' < dropped := by omega
  · have hround : roundHalfEven num (den * 2 ^ dropped') ≤ significand := by
      refine roundHalfEven_le_of_lt (Nat.mul_pos hden (Nat.two_pow_pos _)) ?_
      rwa [div_pow_eq, div_lt_iff₀ hpow]
    omega
  -- with fewer dropped, every significand lies below
  · have hround := roundHalfEven_le_of_log2 hden hdropped'
    have hmul : (dropped' + 1) * 2 ^ 52 ≤ dropped * 2 ^ 52 := Nat.mul_le_mul_right _ hlt
    have hsignificand := hleast (by omega)
    omega

/-- A number less than half a step below a magnitude has no earlier place than it, unless it lies
below all magnitudes of the same exponent. -/
theorem le_ordinal_of_near {significand dropped : Nat} (hden : 0 < den)
    (hmost : significand < 2 ^ 53) (hleast : 0 < dropped → 2 ^ 52 * 2 ^ dropped ≤ (num : ℚ) / den)
    (h : (significand - 1 / 2) * 2 ^ dropped < (num : ℚ) / den) :
    dropped * 2 ^ 52 + significand ≤ ordinal num den := by
  have hpow : (0 : ℚ) < 2 ^ dropped := by positivity
  obtain ⟨dropped', hdropped'⟩ : ∃ dropped, Nat.log2 (num / den) - 52 = dropped := ⟨_, rfl⟩
  -- no fewer bits are dropped than for the significand
  have hle : dropped ≤ dropped' := by
    by_contra hlt
    have hbound := div_lt_pow_of_log2 hden (by omega : Nat.log2 (num / den) - 52 ≤ dropped - 1)
    have hbase := hleast (by omega)
    have hsucc : (2 : ℚ) ^ dropped = 2 ^ (dropped - 1) * 2 := by
      rw [← pow_succ, Nat.sub_add_cancel (by omega)]
    rw [hsucc] at hbase
    linarith
  rw [ordinal_eq num hdropped']
  obtain rfl | hlt : dropped = dropped' ∨ dropped < dropped' := by omega
  · have hround : significand ≤ roundHalfEven num (den * 2 ^ dropped) := by
      refine le_roundHalfEven_of_lt (Nat.mul_pos hden (Nat.two_pow_pos _)) ?_
      rwa [div_pow_eq, lt_div_iff₀ hpow]
    omega
  -- with more dropped, every significand lies above
  · have hround := le_roundHalfEven_of_log2 hden (by omega) hdropped'
    have hmul : (dropped + 1) * 2 ^ 52 ≤ dropped' * 2 ^ 52 := Nat.mul_le_mul_right _ hlt
    omega

/-- The significand of a magnitude and its step, in units. -/
theorem exists_significand (e : Fin 2047) (f : Fin fractions) : ∃ significand dropped : Nat,
    (unitsOf e f : ℚ) = significand * 2 ^ dropped
      ∧ e * fractions + f = dropped * 2 ^ 52 + significand
      ∧ significand < 2 ^ 53 ∧ (0 < dropped → 2 ^ 52 ≤ significand) := by
  obtain ⟨significand, hunits, hordinal⟩ := unitsOf_eq e f
  obtain ⟨dropped, hdropped⟩ : ∃ dropped, Nat.log2 (unitsOf e f) - 52 = dropped := ⟨_, rfl⟩
  rw [hdropped] at hunits hordinal
  have hcast : (unitsOf e f : ℚ) = significand * 2 ^ dropped := by exact_mod_cast hunits
  have hpow : (0 : ℚ) < 2 ^ dropped := by positivity
  have hdiv : unitsOf e f / 1 = unitsOf e f := Nat.div_one _
  refine ⟨significand, dropped, hcast, hordinal.symm, ?_, fun hpos => ?_⟩
  · have hbound := div_lt_pow_of_log2 Nat.one_pos (by rw [hdiv, hdropped])
    rw [Nat.cast_one, div_one, hcast] at hbound
    exact_mod_cast lt_of_mul_lt_mul_right hbound hpow.le
  · have hbound := pow_le_div_of_log2 Nat.one_pos hpos (by rw [hdiv, hdropped])
    rw [Nat.cast_one, div_one, hcast] at hbound
    exact_mod_cast le_of_mul_le_mul_right hbound hpow

/-- Of two numbers around a magnitude that lie closer together than `10 ^ -16` of it, one is rounded
to the magnitude. -/
theorem nearest_of_grid {low high : ℚ} (hnonneg : 0 ≤ low) (hlow : low ≤ magnitude e f)
    (hhigh : magnitude e f ≤ high) (hgrid : (high - low) * 10 ^ 16 ≤ magnitude e f) :
    nearest low = nearest (magnitude e f) ∨ nearest high = nearest (magnitude e f) := by
  obtain ⟨significand, dropped, hunits, hordinal, hmost, hleast⟩ := exists_significand e f
  obtain ⟨num, den, hden, hratio⟩ := exists_ratio hnonneg
  obtain ⟨num', den', hden', hratio'⟩ := exists_ratio (hnonneg.trans (hlow.trans hhigh))
  have hone : (0 : ℚ) < unitsPerOne := by exact_mod_cast unitsPerOne_pos
  have hstep : (0 : ℚ) < 2 ^ dropped := by positivity
  have hvalue : magnitude e f * unitsPerOne = significand * 2 ^ dropped := by
    rw [magnitude, div_mul_cancel₀ _ hone.ne', hunits]
  have hscaled : ((num * unitsPerOne : Nat) : ℚ) / den = low * unitsPerOne := by
    rw [Nat.cast_mul, mul_div_right_comm, ← hratio]
  have hscaled' : ((num' * unitsPerOne : Nat) : ℚ) / den' = high * unitsPerOne := by
    rw [Nat.cast_mul, mul_div_right_comm, ← hratio']
  have hlow' := mul_le_mul_of_nonneg_right hlow hone.le
  have hgrid' := mul_le_mul_of_nonneg_right hgrid hone.le
  rw [hvalue] at hlow' hgrid'
  rw [nearest_magnitude, hordinal]
  by_cases hnear : high * unitsPerOne < (significand + 1 / 2) * 2 ^ dropped
  · right
    have hle := nearest_mono (magnitude_nonneg e f) hhigh
    rw [nearest_magnitude, hordinal] at hle
    rw [nearest_eq hden' hratio'] at hle ⊢
    exact le_antisymm (ordinal_le_of_near hden' hmost hleast (by rwa [hscaled'])) hle
  · left
    have hge := nearest_mono hnonneg hlow
    rw [nearest_magnitude, hordinal] at hge
    rw [nearest_eq hden hratio] at hge ⊢
    generalize (unitsPerOne : ℚ) = one at *
    have hcast : (significand : ℚ) + 1 ≤ 2 ^ 53 := by exact_mod_cast hmost
    have hmul := mul_le_mul_of_nonneg_right hcast hstep.le
    have hclose : (significand - 1 / 2) * 2 ^ dropped < low * one := by linarith
    refine le_antisymm hge (le_ordinal_of_near hden hmost (fun hpos => ?_) (by rwa [hscaled]))
    rw [hscaled]
    obtain heq | hlt := eq_or_lt_of_le (hleast hpos)
    · -- the steps below a power of two are half as long, but so is the grid
      have hcast' : (significand : ℚ) = 2 ^ 52 := by exact_mod_cast heq.symm
      rw [hcast'] at hgrid' hnear hlow'
      linarith
    · have hcast' : (2 : ℚ) ^ 52 + 1 ≤ significand := by exact_mod_cast hlt
      have hmul' := mul_le_mul_of_nonneg_right hcast' hstep.le
      linarith

end Binary64

end Plume
