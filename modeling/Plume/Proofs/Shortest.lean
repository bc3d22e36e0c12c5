import Plume.Proofs.Nearest
import Plume.Proofs.Numerals

/-!
# The shortest decimal of a binary64 number

Among the digits that are read as a given magnitude, `Decimal.shortest` gives the fewest, and of
those the nearest ones (`Decimal.isShortest_shortest`).

## Shape of the proof

Decimals with a given last place form a grid. Scaled by the power of ten of that place it becomes
the whole numbers, and `readBack?` looks at the two on either side of the magnitude. As rounding
keeps the order, no decimal of the grid is read as the magnitude if neither of the two is
(`readBack?_eq_none`). Digits that are read as the magnitude are matched by a decimal of the grid
for their number that is at least as near (`exists_on_grid`), so the search stops at the least
number of digits, and it does stop since seventeen are always enough (`neighbour?_seventeen`).
-/

namespace Plume

namespace Text

/-! ## Digits of numbers -/

/-- A digit is worth less than ten. -/
theorem digitValue_lt {u : CodeUnit} (h : u.isDigit = true) : digitValue u < 10 := by
  have hle : u.toNat ≤ 0x39 := by
    simp only [CodeUnit.isDigit, Bool.and_eq_true, decide_eq_true_eq] at h
    exact h.2
  rw [digitValue]
  omega

/-- One digit or more, and nothing else. -/
structure AreDigits (ds : Text) : Prop where
  ne_nil : ds ≠ []
  isDigit : ∀ u ∈ ds, u.isDigit = true

/-- So many digits are worth less than that power of ten. -/
theorem digitsValue_lt {ds : Text} (h : ∀ u ∈ ds, u.isDigit = true) :
    digitsValue ds < 10 ^ ds.length := by
  induction ds using List.reverseRecOn with
  | nil => exact Nat.one_pos
  | append_singleton ds u ih =>
    have hds := ih fun v hv => h v (List.mem_append_left _ hv)
    have hu := digitValue_lt (h u (List.mem_append_right _ (List.mem_singleton_self u)))
    rw [digitsValue_concat, List.length_append, List.length_singleton, pow_succ]
    omega

theorem digitsValue_cons (u : CodeUnit) (ds : Text) :
    digitsValue (u :: ds) = digitValue u * 10 ^ ds.length + digitsValue ds := by
  rw [← List.singleton_append, digitsValue_append]
  congr 2
  exact Nat.zero_add _

/-- A number has no more digits than it needs. -/
theorem pow_length_ofNat_le {n : Nat} (h : 0 < n) : 10 ^ (ofNat n).length ≤ 10 * n := by
  induction n using Nat.strong_induction_on with
  | _ n ih =>
    rw [ofNat_eq]
    split
    next hlt =>
      rw [List.length_singleton, pow_one]
      omega
    next hge =>
      have hdiv := ih (n / 10) (by omega) (by omega)
      rw [List.length_append, List.length_singleton, pow_succ]
      omega

/-- A number below a power of ten has no more digits than that. -/
theorem length_ofNat_le {n c : Nat} (hc : 0 < c) (h : n < 10 ^ c) : (ofNat n).length ≤ c := by
  obtain rfl | hpos := Nat.eq_zero_or_pos n
  · rw [ofNat_eq, if_pos (by decide), List.length_singleton]
    exact hc
  · by_contra hlt
    have hle := pow_length_ofNat_le hpos
    have hpow : 10 ^ (c + 1) ≤ 10 ^ (ofNat n).length := Nat.pow_le_pow_right (by decide) (by omega)
    rw [pow_succ] at hpow
    omega

/-- A power of ten is a one with zeros behind it. -/
theorem ofNat_pow (c : Nat) : ofNat (10 ^ c) = digit 1 :: List.replicate c (digit 0) := by
  induction c with
  | zero => rw [pow_zero, ofNat_eq, if_pos (by decide), List.replicate_zero]
  | succ c ih =>
    have hpos := Nat.pow_pos (n := c) (show 0 < 10 by decide)
    rw [ofNat_eq, if_neg (by rw [pow_succ]; omega), pow_succ, Nat.mul_div_cancel _ (by decide), ih,
      Nat.mul_mod_left, List.cons_append, ← List.replicate_succ']

end Text

namespace Decimal

open Text Binary64

variable {e : Fin 2047} {f : Fin fractions} {units num den s : Nat} {q : Int} {d : Decimal}

/-- The decimal is read as the magnitude with the given fields. -/
def ReadsAs (d : Decimal) (e : Fin 2047) (f : Fin fractions) : Prop :=
  ofDecimal false d = .finite false e f

/-! ## The grid of a power of ten -/

/-- What `num / den` is of the magnitude on the grid of `10 ^ q`. -/
def Scales (e : Fin 2047) (f : Fin fractions) (q : Int) (num den : Nat) : Prop :=
  0 < den ∧ (num : ℚ) / den * 10 ^ q = magnitude e f

theorem ten_zpow_pos (q : Int) : (0 : ℚ) < 10 ^ q := zpow_pos (by norm_num) q

theorem value_mk (s : Nat) (q : Int) : value ⟨s, q⟩ = s * 10 ^ q := rfl

/-- The decimal of the grid at the floor is not above the magnitude. -/
theorem Scales.floor_le (h : Scales e f q num den) : value ⟨num / den, q⟩ ≤ magnitude e f := by
  rw [← h.2, value_mk]
  exact mul_le_mul_of_nonneg_right Nat.cast_div_le (ten_zpow_pos q).le

/-- The next decimal of the grid is above it. -/
theorem Scales.lt_succ_floor (h : Scales e f q num den) :
    magnitude e f < value ⟨num / den + 1, q⟩ := by
  have hfloor : num < (num / den + 1) * den := by
    rw [Nat.mul_comm]
    exact Nat.lt_mul_div_succ num h.1
  rw [← h.2, value_mk]
  refine mul_lt_mul_of_pos_right ?_ (ten_zpow_pos q)
  rw [div_lt_iff₀ (by exact_mod_cast h.1)]
  exact_mod_cast hfloor

theorem value_mono {s s' : Nat} (h : s ≤ s') (q : Int) : value ⟨s, q⟩ ≤ value ⟨s', q⟩ := by
  rw [value_mk, value_mk]
  exact mul_le_mul_of_nonneg_right (by exact_mod_cast h) (ten_zpow_pos q).le

/-- If any decimal of the grid below the magnitude is read as it, the one next to it is. -/
theorem Scales.readsAs_floor (h : Scales e f q num den) (hs : ReadsAs ⟨s, q⟩ e f)
    (hle : s ≤ num / den) : ReadsAs ⟨num / den, q⟩ e f :=
  ofDecimal_of_between hs (.inr ⟨value_mono hle q, h.floor_le⟩)

/-- If any decimal of the grid above the magnitude is read as it, the one next to it is. -/
theorem Scales.readsAs_succ_floor (h : Scales e f q num den) (hs : ReadsAs ⟨s, q⟩ e f)
    (hle : num / den + 1 ≤ s) : ReadsAs ⟨num / den + 1, q⟩ e f :=
  ofDecimal_of_between hs (.inl ⟨h.lt_succ_floor.le, value_mono hle q⟩)

/-- Distances from the magnitude, counted in units of the grid. -/
theorem Scales.abs_value_sub (h : Scales e f q num den) (s : Nat) :
    |value ⟨s, q⟩ - magnitude e f| = |(s : ℚ) - num / den| * 10 ^ q := by
  rw [← h.2, value_mk, ← sub_mul, abs_mul, abs_of_pos (ten_zpow_pos q)]

/-- No decimal of the grid is read as the magnitude if its neighbours are not. -/
theorem readBack?_eq_none (h : Scales e f q num den)
    (hnone : readBack? (.finite false e f) q num den = none) (s : Nat) :
    ¬ ReadsAs ⟨s, q⟩ e f := by
  intro hs
  simp only [readBack?] at hnone
  split at hnone
  · split at hnone <;> cases hnone
  next hbelow =>
    split at hnone
    · cases hnone
    next habove =>
      obtain hle | hle := Nat.lt_or_ge (num / den) s
      · exact habove (h.readsAs_succ_floor hs hle)
      · exact hbelow (h.readsAs_floor hs hle)

/-- A decimal next to a magnitude, the nearest of its grid that is read as it. -/
structure IsNextTo (e : Fin 2047) (f : Fin fractions) (q : Int) (floor : Nat) (d : Decimal) :
    Prop where
  exponent : d.exponent = q
  digits : d.digits = floor ∨ d.digits = floor + 1
  readsAs : d.ReadsAs e f
  nearest : ∀ s, ReadsAs ⟨s, q⟩ e f → |d.value - magnitude e f| ≤ |value ⟨s, q⟩ - magnitude e f|

/-- Where a neighbour is read back, the result is the nearest of the grid that is. -/
theorem readBack?_eq_some (h : Scales e f q num den)
    (hsome : readBack? (.finite false e f) q num den = some d) :
    IsNextTo e f q (num / den) d := by
  simp only [readBack?] at hsome
  split at hsome
  next hbelow =>
    split at hsome
    next habove =>
      -- both are read as the magnitude, and the nearer one is within half a step
      obtain rfl := Option.some.inj hsome
      refine ⟨rfl, roundHalfEven_eq_or num den, ?_, fun s _ => ?_⟩
      · obtain hround | hround := roundHalfEven_eq_or num den
        · rw [hround]
          exact hbelow
        · rw [hround]
          exact habove
      · rw [h.abs_value_sub, h.abs_value_sub]
        exact mul_le_mul_of_nonneg_right (abs_roundHalfEven_sub_le_abs num h.1 s)
          (ten_zpow_pos q).le
    next habove =>
      obtain rfl := Option.some.inj hsome
      refine ⟨rfl, .inl rfl, hbelow, fun s hs => ?_⟩
      have hle : s ≤ num / den := by
        by_contra hlt
        exact habove (h.readsAs_succ_floor hs (Nat.not_le.mp hlt))
      have hvalue := value_mono hle q
      have hfloor := h.floor_le
      rw [abs_of_nonpos (by linarith), abs_of_nonpos (by linarith)]
      linarith
  next hbelow =>
    split at hsome
    next habove =>
      obtain rfl := Option.some.inj hsome
      refine ⟨rfl, .inr rfl, habove, fun s hs => ?_⟩
      have hle : num / den + 1 ≤ s := by
        by_contra hlt
        exact hbelow (h.readsAs_floor hs (by omega))
      have hvalue := value_mono hle q
      have hfloor := h.lt_succ_floor
      rw [abs_of_pos (by linarith), abs_of_pos (by linarith)]
      linarith
    · cases hsome

/-! ## The grid for a number of digits -/

/-- The quotient that the digits are taken from scales the magnitude. -/
theorem scales_scaled (e : Fin 2047) (f : Fin fractions) (q : Int) :
    Scales e f q (scaled (unitsOf e f) q).1 (scaled (unitsOf e f) q).2 := by
  have hone : (unitsPerOne : ℚ) ≠ 0 := by exact_mod_cast unitsPerOne_pos.ne'
  rw [scaled]
  split
  -- a positive power divides the magnitude
  next hq =>
    lift q to Nat using hq
    rw [Int.toNat_natCast, Nat.pow_eq]
    refine ⟨Nat.mul_pos unitsPerOne_pos (Nat.pow_pos (by decide)), ?_⟩
    rw [magnitude, zpow_natCast, Nat.cast_mul, Nat.cast_pow, Nat.cast_ofNat, ← div_div,
      div_mul_cancel₀ _ (by positivity)]
  -- a negative one multiplies it
  next hq =>
    obtain ⟨n, rfl⟩ : ∃ n : Nat, q = -n := ⟨q.natAbs, by omega⟩
    rw [neg_neg, Int.toNat_natCast, Nat.pow_eq]
    dsimp only
    refine ⟨unitsPerOne_pos, ?_⟩
    rw [magnitude, zpow_neg, zpow_natCast, Nat.cast_mul, Nat.cast_pow, Nat.cast_ofNat,
      mul_div_right_comm, mul_assoc, mul_inv_cancel₀ (by positivity), mul_one]

/-- The magnitude lies in its decade. -/
theorem decade_bounds (h : 0 < unitsOf e f) :
    (10 : ℚ) ^ (decade (unitsOf e f) - 1) ≤ magnitude e f
      ∧ magnitude e f < 10 ^ decade (unitsOf e f) := by
  have hten : unitsPerOne ≤ 10 ^ 324 := by decide +kernel
  have hone := unitsPerOne_pos
  have hplaces : (324 : Int) = (324 : Nat) := rfl
  rw [decade, magnitude, hplaces]
  -- the numbers are far too large to be evaluated, and only these bounds matter
  generalize unitsOf e f = units at *
  generalize unitsPerOne = one at *
  generalize 324 = places at *
  rw [Nat.pow_eq]
  have hone' : (0 : ℚ) < one := by exact_mod_cast hone
  obtain ⟨whole, hwhole⟩ : ∃ whole, units * 10 ^ places / one = whole := ⟨_, rfl⟩
  have hpos : 0 < whole :=
    hwhole ▸ Nat.div_pos (hten.trans (Nat.le_mul_of_pos_left _ h)) hone
  have hfloor : (whole : ℚ) ≤ units / one * 10 ^ places := by
    rw [div_mul_eq_mul_div, le_div_iff₀ hone']
    exact_mod_cast hwhole ▸ Nat.div_mul_le_self (units * 10 ^ places) one
  have hceil : (units : ℚ) / one * 10 ^ places < whole + 1 := by
    rw [div_mul_eq_mul_div, div_lt_iff₀ hone', mul_comm _ (one : ℚ)]
    exact_mod_cast hwhole ▸ Nat.lt_mul_div_succ (units * 10 ^ places) hone
  -- the count of digits of the whole part is the decade
  have hleast : (10 : ℚ) ^ (ofNat whole).length ≤ 10 * whole := by
    exact_mod_cast pow_length_ofNat_le hpos
  have hmost : (whole : ℚ) + 1 ≤ 10 ^ (ofNat whole).length := by
    have hlt := digitsValue_lt (isDigit_of_mem_ofNat (n := whole))
    rw [digitsValue_ofNat] at hlt
    exact_mod_cast hlt
  have hscale : (0 : ℚ) < 10 ^ places := by positivity
  rw [hwhole, zpow_sub_one₀ (by norm_num), zpow_sub₀ (by norm_num), zpow_natCast, zpow_natCast,
    lt_div_iff₀ hscale, ← div_eq_mul_inv, div_div, div_le_iff₀ (by positivity)]
  constructor <;> linarith

variable {count : Nat}

/-- Where no neighbour is read back with so many digits, no decimal with so many is. -/
theorem neighbour?_eq_none (h : neighbour? (.finite false e f) (unitsOf e f) count = none)
    (s : Nat) : ¬ ReadsAs ⟨s, decade (unitsOf e f) - count⟩ e f := by
  rw [neighbour?] at h
  exact readBack?_eq_none (scales_scaled e f _) h s

/-- A neighbour that is read back has no more digits than asked for. -/
theorem neighbour?_eq_some (hpos : 0 < unitsOf e f)
    (h : neighbour? (.finite false e f) (unitsOf e f) count = some d) :
    ∃ floor < 10 ^ count, IsNextTo e f (decade (unitsOf e f) - count) floor d := by
  rw [neighbour?] at h
  have hscales := scales_scaled e f (decade (unitsOf e f) - count)
  refine ⟨_, ?_, readBack?_eq_some hscales h⟩
  have hlt := hscales.floor_le.trans_lt (decade_bounds hpos).2
  generalize (scaled (unitsOf e f) _).1 / (scaled (unitsOf e f) _).2 = floor at hlt ⊢
  rw [value_mk, zpow_sub₀ (by norm_num), zpow_natCast, mul_div_assoc', div_lt_iff₀ (by positivity),
    mul_comm, mul_lt_mul_iff_right₀ (ten_zpow_pos _)] at hlt
  exact_mod_cast hlt

/-- Seventeen digits are enough for every magnitude. -/
theorem neighbour?_seventeen (hpos : 0 < unitsOf e f) :
    neighbour? (.finite false e f) (unitsOf e f) 17 ≠ none := by
  intro hnone
  have hreads := neighbour?_eq_none hnone
  have hscales := scales_scaled e f (decade (unitsOf e f) - (17 : Nat))
  have hdecade := (decade_bounds hpos).1
  have hstep : (10 : ℚ) ^ (decade (unitsOf e f) - (17 : Nat)) * 10 ^ 16
      = 10 ^ (decade (unitsOf e f) - 1) := by
    rw [← zpow_natCast, ← zpow_add₀ (by norm_num)]
    congr 1
    push_cast
    ring
  have hlow := hscales.floor_le
  have hhigh := hscales.lt_succ_floor.le
  generalize (scaled (unitsOf e f) _).1 / (scaled (unitsOf e f) _).2 = floor at hlow hhigh
  -- with seventeen digits the grid is too fine for both neighbours to miss the magnitude
  have hgrid : (value ⟨floor + 1, decade (unitsOf e f) - (17 : Nat)⟩
      - value ⟨floor, decade (unitsOf e f) - (17 : Nat)⟩) * 10 ^ 16 ≤ magnitude e f := by
    rw [value_mk, value_mk, ← sub_mul, Nat.cast_succ, add_sub_cancel_left, one_mul, hstep]
    exact hdecade
  obtain hnear | hnear := nearest_of_grid (value_nonneg _) hlow hhigh hgrid
  · rw [nearest_magnitude, ← ofDecimal_eq_finite_iff] at hnear
    exact hreads _ hnear
  · rw [nearest_magnitude, ← ofDecimal_eq_finite_iff] at hnear
    exact hreads _ hnear

/-- The search goes from fewer digits to more. -/
theorem exists_count (hpos : 0 < unitsOf e f) : ∃ count,
    neighbour? (.finite false e f) (unitsOf e f) count = some (shortest e f)
      ∧ 0 < count
      ∧ ∀ c, 0 < c → c < count → neighbour? (.finite false e f) (unitsOf e f) c = none := by
  rw [shortest]
  cases hfind : (List.range' 1 17).findSome? (neighbour? (.finite false e f) (unitsOf e f)) with
  | none =>
    rw [List.findSome?_eq_none_iff] at hfind
    exact absurd (hfind 17 (by decide)) (neighbour?_seventeen hpos)
  | some d =>
    obtain ⟨fewer, count, more, hrange, hcount, hfewer⟩ := List.findSome?_eq_some_iff.mp hfind
    -- the counts are tried in order, so that none below the one found has been passed over
    have hmem : ∀ c, c ∈ fewer ++ count :: more ↔ 0 < c ∧ c < 18 := by
      intro c
      rw [← hrange, List.mem_range'_1]
      omega
    have hcount' := (hmem count).mp (List.mem_append_right _ List.mem_cons_self)
    have hsorted := List.pairwise_append.mp (hrange ▸ List.pairwise_lt_range' (s := 1) (n := 17))
    refine ⟨count, hcount, hcount'.1, fun c hc hlt => hfewer c ?_⟩
    obtain hc | hc := List.mem_append.mp ((hmem c).mpr ⟨hc, by omega⟩)
    · exact hc
    · obtain rfl | hc := List.mem_cons.mp hc
      · exact absurd hlt (lt_irrefl _)
      · exact absurd hlt (lt_asymm ((List.pairwise_cons.mp hsorted.2.1).1 c hc))

/-! ## Fewest digits -/

/-- The digits with a point behind the first one, times a power of ten. -/
def ofDigits (ds : Text) (power : Int) : Decimal := ⟨digitsValue ds, power + 1 - ds.length⟩

/-- The digits, the first of which has the given power of ten, are read as the magnitude with the
given fields. No fewer digits are, and as many are read as it only if they are no nearer. -/
structure IsShortest (e : Fin 2047) (f : Fin fractions) (ds : Text) (power : Int) : Prop where
  areDigits : AreDigits ds
  leading : ds.head? ≠ some (digit 0)
  readsAs : (ofDigits ds power).ReadsAs e f
  fewest : ∀ ds' power', AreDigits ds' → (ofDigits ds' power').ReadsAs e f →
    ds.length ≤ ds'.length
  nearest : ∀ ds' power', AreDigits ds' → (ofDigits ds' power').ReadsAs e f →
    ds'.length = ds.length →
      |(ofDigits ds power).value - magnitude e f| ≤ |(ofDigits ds' power').value - magnitude e f|

variable {ds : Text} {power : Int}

/-- Digits with a leading power are less than the power above it. -/
theorem value_ofDigits_lt (h : AreDigits ds) (power : Int) :
    (ofDigits ds power).value < 10 ^ (power + 1) := by
  have hlt : (digitsValue ds : ℚ) < 10 ^ ds.length := by
    exact_mod_cast digitsValue_lt h.isDigit
  rw [ofDigits, value_mk, zpow_sub₀ (by norm_num), zpow_natCast, mul_div_assoc',
    div_lt_iff₀ (by positivity), mul_comm]
  exact mul_lt_mul_of_pos_left hlt (ten_zpow_pos _)

/-- Digits that are read as a magnitude are matched by a decimal of the grid for their number. -/
theorem exists_on_grid (hpos : 0 < unitsOf e f) (hds : AreDigits ds)
    (h : (ofDigits ds power).ReadsAs e f) : ∃ s : Nat,
    ReadsAs ⟨s, decade (unitsOf e f) - ds.length⟩ e f
      ∧ |value ⟨s, decade (unitsOf e f) - ds.length⟩ - magnitude e f|
        ≤ |(ofDigits ds power).value - magnitude e f| := by
  have hdecade := (decade_bounds hpos).1
  by_cases hle : decade (unitsOf e f) ≤ power + 1
  · -- the digits are on the grid, or on a coarser one
    obtain ⟨k, hk⟩ : ∃ k : Nat, power + 1 = decade (unitsOf e f) + k :=
      ⟨(power + 1 - decade (unitsOf e f)).toNat, by omega⟩
    have hvalue : value ⟨digitsValue ds * 10 ^ k, decade (unitsOf e f) - ds.length⟩
        = (ofDigits ds power).value := by
      rw [value_mul_pow, ofDigits, hk]
      congr 2
      ring
    refine ⟨digitsValue ds * 10 ^ k, ?_, by rw [hvalue]⟩
    rw [ReadsAs, ofDecimal_congr false hvalue]
    exact h
  · -- the digits are below the decade, and the least number of the decade is nearer
    have hlength := List.length_pos_iff.mpr hds.ne_nil
    have hvalue : value ⟨10 ^ (ds.length - 1), decade (unitsOf e f) - ds.length⟩
        = 10 ^ (decade (unitsOf e f) - 1) := by
      rw [value_mk, Nat.cast_pow, Nat.cast_ofNat, ← zpow_natCast, ← zpow_add₀ (by norm_num)]
      congr 1
      omega
    have hbelow : (ofDigits ds power).value
        ≤ value ⟨10 ^ (ds.length - 1), decade (unitsOf e f) - ds.length⟩ := by
      rw [hvalue]
      exact (value_ofDigits_lt hds power).le.trans (zpow_le_zpow_right₀ (by norm_num) (by omega))
    rw [← hvalue] at hdecade
    refine ⟨10 ^ (ds.length - 1), ofDecimal_of_between h (.inr ⟨hbelow, hdecade⟩), ?_⟩
    rw [abs_of_nonpos (by linarith), abs_of_nonpos (by linarith)]
    linarith

/-- Zeros at the end are not significant, so `10 ^ c` has one significant digit. -/
theorem length_significant_le {c : Nat} (hc : 0 < c) (h : d.digits ≤ 10 ^ c) :
    d.significant.length ≤ c := by
  obtain heq | hlt := eq_or_lt_of_le h
  · rw [significant, heq, ofNat_pow, List.reverse_cons, List.reverse_replicate,
      List.dropWhile_append_of_pos (by simp), List.dropWhile_cons_of_neg (by decide)]
    exact hc
  · obtain ⟨k, hk⟩ := exists_ofNat_eq d
    have hlength := length_ofNat_le hc hlt
    rw [hk, List.length_append] at hlength
    omega

theorem ofDigits_significant_value (d : Decimal) :
    (ofDigits d.significant d.leadingPower).value = d.value := value_significant d

/-- What is read as a positive magnitude is not zero. -/
theorem digits_ne_zero (hpos : 0 < unitsOf e f) (h : d.ReadsAs e f) : d.digits ≠ 0 := by
  intro hzero
  rw [ReadsAs, ofDecimal_zero false hzero, zero] at h
  cases h
  exact absurd hpos (by decide)

/-- The first significant digit is not a zero. -/
theorem leading_significant (h : d.digits ≠ 0) : d.significant.head? ≠ some (digit 0) := by
  intro hhead
  obtain ⟨rest, hrest⟩ := List.head?_eq_some_iff.mp hhead
  obtain ⟨k, hk⟩ := exists_ofNat_eq d
  rw [hrest, List.cons_append] at hk
  have hmost := pow_length_ofNat_le (Nat.pos_of_ne_zero h)
  have hmem : ∀ u ∈ rest ++ List.replicate k (digit 0), u.isDigit = true := by
    intro u hu
    exact isDigit_of_mem_ofNat u (hk ▸ List.mem_cons_of_mem _ hu)
  have hlt := digitsValue_lt hmem
  have hvalue : digitsValue (rest ++ List.replicate k (digit 0)) = d.digits := by
    rw [← digitsValue_ofNat d.digits, hk, digitsValue_cons,
      digitValue_digit (by decide), Nat.zero_mul, Nat.zero_add]
  rw [hvalue] at hlt
  rw [hk, List.length_cons, pow_succ] at hmost
  omega

/-- The digits that are written are the shortest ones, and of these the nearest. -/
theorem isShortest_shortest (hpos : 0 < unitsOf e f) :
    IsShortest e f (shortest e f).significant (shortest e f).leadingPower := by
  obtain ⟨count, hcount, hcountPos, hfewer⟩ := exists_count hpos
  obtain ⟨floor, hfloor, hnext⟩ := neighbour?_eq_some hpos hcount
  have hdigits : (shortest e f).digits ≤ 10 ^ count := by
    obtain h | h := hnext.digits <;> omega
  have hlength := length_significant_le hcountPos hdigits
  have hne := digits_ne_zero hpos hnext.readsAs
  -- other digits lie on the grid of their own count, where none was found before `count`
  have hleast : ∀ ds' power', AreDigits ds' → (ofDigits ds' power').ReadsAs e f →
      count ≤ ds'.length := by
    intro ds' power' hds' h'
    obtain ⟨s, hs, -⟩ := exists_on_grid hpos hds' h'
    by_contra hlt
    exact neighbour?_eq_none (hfewer _ (List.length_pos_iff.mpr hds'.ne_nil) (by omega)) s hs
  refine ⟨⟨significant_ne_nil hne, isDigit_of_mem_significant⟩, leading_significant hne, ?_, ?_, ?_⟩
  · rw [ReadsAs, ofDecimal_congr false (ofDigits_significant_value _)]
    exact hnext.readsAs
  · intro ds' power' hds' h'
    exact hlength.trans (hleast ds' power' hds' h')
  · intro ds' power' hds' h' hsame
    obtain ⟨s, hs, hnear⟩ := exists_on_grid hpos hds' h'
    have hle := hleast ds' power' hds' h'
    rw [show ds'.length = count by omega] at hs hnear
    rw [ofDigits_significant_value]
    exact (hnext.nearest s hs).trans hnear

/-! ## Where the power of ten changes -/

/-- Digits that do not start with a zero are worth a tenth of their power of ten at least. -/
theorem pow_le_digitsValue (h : AreDigits ds) (hleading : ds.head? ≠ some (digit 0)) :
    10 ^ ds.length ≤ 10 * digitsValue ds := by
  obtain ⟨u, rest, rfl⟩ := List.exists_cons_of_ne_nil h.ne_nil
  have hu : 0 < digitValue u := by
    have hdigit := h.isDigit u List.mem_cons_self
    simp only [CodeUnit.isDigit, Bool.and_eq_true, decide_eq_true_eq] at hdigit
    have hlow : 0x30 ≤ u.toNat := hdigit.1
    have hne : u.toNat ≠ 0x30 := by
      intro heq
      exact hleading (congrArg some (UInt16.toNat_inj.mp heq))
    rw [digitValue]
    omega
  have hpow := Nat.le_mul_of_pos_left (10 ^ rest.length) hu
  rw [digitsValue_cons, List.length_cons, pow_succ]
  omega

/-- Digits that do not start with a zero are not below their leading power. -/
theorem pow_le_value_ofDigits (h : AreDigits ds) (hleading : ds.head? ≠ some (digit 0))
    (power : Int) : (10 : ℚ) ^ power ≤ (ofDigits ds power).value := by
  have hle : (10 : ℚ) ^ ds.length ≤ 10 * digitsValue ds := by
    exact_mod_cast pow_le_digitsValue h hleading
  have hpower := ten_zpow_pos power
  rw [ofDigits, value_mk, zpow_sub₀ (by norm_num), zpow_add_one₀ (by norm_num), zpow_natCast,
    mul_div_assoc', le_div_iff₀ (by positivity)]
  have hmul := mul_le_mul_of_nonneg_left hle hpower.le
  linarith

/-- The power of ten of the shortest digits is the one of the magnitude, at every power of ten that
is not rounded down. -/
theorem IsShortest.le_power_iff (h : IsShortest e f ds power) {bound : Int}
    (hbound : ∀ e' f', ReadsAs ⟨1, bound⟩ e' f' → (10 : ℚ) ^ bound ≤ magnitude e' f') :
    bound ≤ power ↔ (10 : ℚ) ^ bound ≤ magnitude e f := by
  have hlow := pow_le_value_ofDigits h.areDigits h.leading power
  have hhigh := value_ofDigits_lt h.areDigits power
  have hone : value ⟨1, bound⟩ = 10 ^ bound := by rw [value_mk, Nat.cast_one, one_mul]
  constructor
  · intro hle
    by_contra hlt
    have hpow : (10 : ℚ) ^ bound ≤ 10 ^ power := zpow_le_zpow_right₀ (by norm_num) hle
    refine hlt (hbound e f (ofDecimal_of_between h.readsAs (.inl ⟨?_, ?_⟩)))
    · rw [hone]
      exact (not_le.mp hlt).le
    · rw [hone]
      exact hpow.trans hlow
  · intro hle
    by_contra hlt
    have hpow : (10 : ℚ) ^ (power + 1) ≤ 10 ^ bound :=
      zpow_le_zpow_right₀ (by norm_num) (by omega)
    -- a single digit would be read as the magnitude, and be nearer
    have hdigit : AreDigits [digit 1] := ⟨List.cons_ne_nil _ _, List.all_eq_true.mp rfl⟩
    have hvalue : (ofDigits [digit 1] bound).value = 10 ^ bound := by
      rw [← hone, ofDigits]
      congr 2
      rw [List.length_singleton]
      omega
    have hreads : (ofDigits [digit 1] bound).ReadsAs e f := by
      refine ofDecimal_of_between h.readsAs (.inr ⟨?_, ?_⟩) <;> rw [hvalue]
      · linarith
      · exact hle
    have hlength := h.fewest _ _ hdigit hreads
    have hpos := List.length_pos_iff.mpr h.areDigits.ne_nil
    have hnear := h.nearest _ _ hdigit hreads (by rw [List.length_singleton] at hlength ⊢; omega)
    rw [hvalue, abs_of_nonpos (by linarith), abs_of_nonpos (by linarith)] at hnear
    linarith

/-! ## Whole numbers -/

/-- Every integer up to `2 ^ 53` is a magnitude. -/
theorem exists_magnitude_eq {m : Nat} (hpos : 0 < m) (hle : m ≤ 2 ^ 53) :
    ∃ e f, magnitude e f = m := by
  obtain ⟨e, f, hunits⟩ := exists_unitsOf_eq hpos hle
  have hone : (unitsPerOne : ℚ) ≠ 0 := by exact_mod_cast unitsPerOne_pos.ne'
  refine ⟨e, f, ?_⟩
  rw [magnitude, hunits, Nat.cast_mul, mul_div_cancel_right₀ _ hone]

/-- Even whole numbers are binary64 numbers up to the next power of two. -/
theorem exists_magnitude_eq_double {m : Nat} (hpos : 0 < m) (hle : m ≤ 2 ^ 53) :
    ∃ e f, magnitude e f = 2 * m := by
  obtain ⟨e, f, hunits⟩ := exists_unitsOf_eq hpos hle
  have hone : (unitsPerOne : ℚ) ≠ 0 := by exact_mod_cast unitsPerOne_pos.ne'
  -- an integer is a normal magnitude, and twice as much is one exponent further, which is not the
  -- last
  have hnormal : e.val ≠ 0 := by
    intro hzero
    have hone : fractions ≤ unitsPerOne := by decide +kernel
    have hmul := Nat.le_mul_of_pos_left unitsPerOne hpos
    have hf := f.isLt
    rw [unitsOf, if_pos hzero] at hunits
    omega
  have hlt : e.val + 1 < 2047 := by
    by_contra hge
    have hgreat : 2 ^ 53 * unitsPerOne < fractions * Nat.pow 2 (e.val - 1) := by
      rw [show e.val - 1 = 2045 by omega]
      decide +kernel
    have hmul := Nat.mul_le_mul_right unitsPerOne hle
    rw [unitsOf, if_neg hnormal] at hunits
    generalize Nat.pow 2 (e.val - 1) = greatest at hgreat hunits
    have hadd := Nat.mul_le_mul_right greatest (Nat.le_add_right fractions f)
    omega
  have hdouble : unitsOf (e.val + 1) f = 2 * unitsOf e f := by
    obtain ⟨k, hk⟩ := Nat.exists_eq_succ_of_ne_zero hnormal
    rw [unitsOf, unitsOf, if_neg (Nat.succ_ne_zero _), if_neg hnormal, hk]
    show (fractions + f.val) * 2 ^ (k + 1) = 2 * ((fractions + f.val) * 2 ^ k)
    ring
  refine ⟨⟨e.val + 1, hlt⟩, f, ?_⟩
  rw [magnitude, hdouble, hunits, Nat.cast_mul, Nat.cast_mul, Nat.cast_ofNat, mul_div_assoc,
    mul_div_cancel_right₀ _ hone]

/-- A decimal that is a binary64 number itself is read as that number. -/
theorem ReadsAs.magnitude_eq {e' : Fin 2047} {f' : Fin fractions} (h : d.ReadsAs e f)
    (hvalue : magnitude e' f' = d.value) : magnitude e f = d.value := by
  have hread : ofDecimal false d = .finite false e' f' := by
    rw [ofDecimal_eq_finite_iff, ← hvalue, nearest_magnitude]
  rw [ReadsAs, hread] at h
  cases h
  exact hvalue

/-- A power of ten that is a magnitude is read as nothing smaller. -/
theorem pow_le_of_readsAs {bound : Int} {e' : Fin 2047} {f' : Fin fractions}
    (hvalue : magnitude e' f' = 10 ^ bound) (h : ReadsAs ⟨1, bound⟩ e f) :
    (10 : ℚ) ^ bound ≤ magnitude e f := by
  have hone : value ⟨1, bound⟩ = 10 ^ bound := by rw [value_mk, Nat.cast_one, one_mul]
  rw [h.magnitude_eq (hvalue.trans hone.symm), hone]

/-- A negative power of ten as a bound from below, in units. -/
theorem pow_neg_le_magnitude {k : Nat} (h : unitsPerOne ≤ unitsOf e f * 10 ^ k) :
    (10 : ℚ) ^ (-k : Int) ≤ magnitude e f := by
  have hone : (0 : ℚ) < unitsPerOne := by exact_mod_cast unitsPerOne_pos
  rw [magnitude, le_div_iff₀ hone, zpow_neg, zpow_natCast, inv_mul_le_iff₀ (by positivity),
    mul_comm]
  exact_mod_cast h

/-- Whether the leading power is at least sixteen shows in the magnitude. -/
theorem IsShortest.sixteen_le_power_iff (h : IsShortest e f ds power) :
    16 ≤ power ↔ (10 : ℚ) ^ 16 ≤ magnitude e f := by
  have hvalue : ((5 * 10 ^ 15 : Nat) : ℚ) * 2 = 10 ^ 16 := by norm_num
  obtain ⟨e', f', hdouble⟩ := exists_magnitude_eq_double (m := 5 * 10 ^ 15) (by decide) (by decide)
  rw [mul_comm, hvalue] at hdouble
  exact h.le_power_iff fun _ _ => pow_le_of_readsAs hdouble

/-- Whether the leading power is at least minus four shows in the magnitude. -/
theorem IsShortest.neg_four_le_power_iff (h : IsShortest e f ds power) :
    -4 ≤ power ↔ (10 : ℚ) ^ (-4 : Int) ≤ magnitude e f := by
  refine h.le_power_iff fun e' f' hreads => ?_
  have hread : ofDecimal false ⟨1, -4⟩
      = .finite false ⟨1009, by decide⟩ ⟨2875098002113325, by decide⟩ := by decide +kernel
  rw [ReadsAs, hread] at hreads
  cases hreads
  exact pow_neg_le_magnitude (k := 4) (by decide +kernel)

/-- Whether the leading power is at least so much shows in the magnitude. -/
theorem IsShortest.natCast_le_power_iff (h : IsShortest e f ds power) {k : Nat} (hk : k ≤ 15) :
    (k : Int) ≤ power ↔ (10 : ℚ) ^ k ≤ magnitude e f := by
  have hexact : 10 ^ k ≤ 2 ^ 53 := (Nat.pow_le_pow_right (by decide) hk).trans (by decide)
  obtain ⟨e', f', hpow⟩ := exists_magnitude_eq (Nat.pow_pos (by decide : 0 < 10)) hexact
  rw [Nat.cast_pow, Nat.cast_ofNat, ← zpow_natCast] at hpow
  rw [h.le_power_iff fun _ _ => pow_le_of_readsAs hpow, zpow_natCast]

/-- A multiple of ten below `10 ^ 16` is not rounded. -/
theorem exists_magnitude_eq_ofDigits (h : AreDigits ds) (hleading : ds.head? ≠ some (digit 0))
    (hlow : ds.length ≤ power) (hhigh : power < 16) :
    ∃ e f, magnitude e f = (ofDigits ds power).value := by
  obtain ⟨k, hk⟩ : ∃ k : Nat, power + 1 - ds.length = k + 1 :=
    ⟨(power - ds.length).toNat, by omega⟩
  -- a whole number with a zero at its end is even, and half of it is small enough
  have hdouble : (ofDigits ds power).value = 2 * (digitsValue ds * 5 * 10 ^ k : Nat) := by
    rw [ofDigits, hk, value_mk, zpow_add_one₀ (by norm_num), zpow_natCast]
    push_cast
    ring
  have hdigits : 0 < digitsValue ds := by
    have hle := pow_le_digitsValue h hleading
    have hten := Nat.pow_pos (n := ds.length) (by decide : 0 < 10)
    omega
  have hsmall : digitsValue ds * 5 * 10 ^ k ≤ 2 ^ 53 := by
    have hlt := (value_ofDigits_lt h power).trans_le
      (zpow_le_zpow_right₀ (by norm_num) (by omega : power + 1 ≤ 16))
    rw [hdouble] at hlt
    have hlt' : 2 * (digitsValue ds * 5 * 10 ^ k) < 10 ^ 16 := by exact_mod_cast hlt
    omega
  rw [hdouble]
  exact exists_magnitude_eq_double (by positivity) hsmall

/-- A whole number below `10 ^ 16` is its own shortest decimal. -/
theorem IsShortest.value_eq (h : IsShortest e f ds power) {n : Nat} (hpos : 0 < n)
    (hn : magnitude e f = n) (hlt : n < 10 ^ 16) : (ofDigits ds power).value = n := by
  have hlength := pow_length_ofNat_le hpos
  have hown : AreDigits (ofNat n) := ⟨ofNat_ne_nil n, isDigit_of_mem_ofNat⟩
  obtain ⟨k, hk⟩ : ∃ k, (ofNat n).length = k + 1 :=
    Nat.exists_eq_succ_of_ne_zero (List.length_pos_iff.mpr hown.ne_nil).ne'
  have hvalue : (ofDigits (ofNat n) k).value = n := by
    rw [ofDigits, digitsValue_ofNat, hk, value_mk, Nat.cast_succ, sub_self, zpow_zero, mul_one]
  have hreads : (ofDigits (ofNat n) k).ReadsAs e f := by
    rw [ReadsAs, ofDecimal_eq_finite_iff, hvalue, ← hn, nearest_magnitude]
  obtain heq | hfewer := eq_or_lt_of_le (h.fewest _ _ hown hreads)
  · have hnear := h.nearest _ _ hown hreads heq.symm
    rw [hvalue, hn, sub_self, abs_zero, abs_nonpos_iff, sub_eq_zero] at hnear
    exact hnear
  · -- fewer digits make a multiple of ten, which is too small to be rounded
    have hpow : 10 ^ k ≤ n := by
      rw [hk, pow_succ] at hlength
      omega
    have hk' : k ≤ 15 := by
      by_contra hge
      have hle : 10 ^ 16 ≤ 10 ^ k := Nat.pow_le_pow_right (by decide) (by omega)
      omega
    have hlow : (k : Int) ≤ power := by
      rw [h.natCast_le_power_iff hk', hn]
      exact_mod_cast hpow
    have hhigh : power < 16 := by
      rw [← not_le, h.sixteen_le_power_iff, hn, not_le]
      exact_mod_cast hlt
    obtain ⟨e', f', hexact⟩ :=
      exists_magnitude_eq_ofDigits h.areDigits h.leading (by omega) hhigh
    rw [← hn, h.readsAs.magnitude_eq hexact]

end Decimal

end Plume
