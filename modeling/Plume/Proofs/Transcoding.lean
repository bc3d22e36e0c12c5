import Mathlib.Data.List.Basic
import Plume.Text.Base64
import Plume.Text.Utf8

/-!
# Texts as bytes and bytes as texts

Three pairs of functions take a text to its characters, to bytes and to Base64, and back. Base64 and
UTF-8 lose nothing (`Base64.decode?_encode`, `Utf8.decode_encode`). Characters lose the surrogates
that stand alone, for which U+FFFD comes back (`Text.ofChars_characters`).

## Shape of the proofs

Base64 goes by groups of three bytes: `sextets` are the numbers that the bytes are cut into, apart
from the units that they are written with and from the padding. UTF-8 goes by characters, one length
after the other, with a lemma of its own for a continuation byte. In UTF-16 a surrogate is alone or
not by its two neighbours (`Text.isLoneAt`), so that taking units off the front of a text changes
nothing behind them, as long as no pair is cut in two.
-/

namespace Plume

/-! ## Base64 -/

namespace Base64

/-- The numbers below 64 that bytes are cut into. The last one is filled up with zero bits. -/
def sextets : List UInt8 → List Nat
  | [] => []
  | [a] => [a.toNat / 4, a.toNat % 4 * 16]
  | [a, b] => [a.toNat / 4, a.toNat % 4 * 16 + b.toNat / 16, b.toNat % 16 * 4]
  | a :: b :: c :: rest =>
    a.toNat / 4 :: (a.toNat % 4 * 16 + b.toNat / 16) :: (b.toNat % 16 * 4 + c.toNat / 64)
      :: c.toNat % 64 :: sextets rest

/-- How many padding units fill the last group. -/
def missing (bytes : List UInt8) : Nat := (3 - bytes.length % 3) % 3

/-- Bytes are encoded as their sextets, with padding up to a full group. -/
theorem encode_eq : ∀ bytes : List UInt8,
    encode bytes = (sextets bytes).map sextet ++ List.replicate (missing bytes) padding
  | [] => rfl
  | [_] => rfl
  | [_, _] => rfl
  | a :: b :: c :: rest => by
    have hmissing : missing (a :: b :: c :: rest) = missing rest := by
      simp only [missing, List.length_cons]
      omega
    rw [encode, sextets, hmissing, encode_eq rest]
    rfl

/-- A sextet has six bits. -/
theorem lt_of_mem_sextets : ∀ (bytes : List UInt8), ∀ n ∈ sextets bytes, n < 64
  | [], n, hn => by cases hn
  | [a], n, hn => by
    have ha := a.toNat_lt
    simp only [sextets, List.mem_cons, List.not_mem_nil, or_false] at hn
    omega
  | [a, b], n, hn => by
    have ha := a.toNat_lt
    have hb := b.toNat_lt
    simp only [sextets, List.mem_cons, List.not_mem_nil, or_false] at hn
    omega
  | a :: b :: c :: rest, n, hn => by
    have ha := a.toNat_lt
    have hb := b.toNat_lt
    have hc := c.toNat_lt
    simp only [sextets, List.mem_cons] at hn
    obtain hn | hn | hn | hn | hn := hn
    · omega
    · omega
    · omega
    · omega
    · exact lt_of_mem_sextets rest n hn

theorem ofNat_eq_of_toNat {n : Nat} {b : UInt8} (h : n = b.toNat) : UInt8.ofNat n = b := by
  rw [h, UInt8.ofNat_toNat]

/-- The numbers make up the bytes that were cut into them. -/
theorem bytesOfSextets_sextets : ∀ bytes : List UInt8, bytesOfSextets (sextets bytes) = bytes
  | [] => rfl
  | [a] => by
    have ha := a.toNat_lt
    rw [sextets, bytesOfSextets, ofNat_eq_of_toNat (b := a) (by omega)]
  | [a, b] => by
    have ha := a.toNat_lt
    have hb := b.toNat_lt
    rw [sextets, bytesOfSextets, ofNat_eq_of_toNat (b := a) (by omega),
      ofNat_eq_of_toNat (b := b) (by omega)]
  | a :: b :: c :: rest => by
    have ha := a.toNat_lt
    have hb := b.toNat_lt
    have hc := c.toNat_lt
    rw [sextets, bytesOfSextets, ofNat_eq_of_toNat (b := a) (by omega),
      ofNat_eq_of_toNat (b := b) (by omega), ofNat_eq_of_toNat (b := c) (by omega),
      bytesOfSextets_sextets rest]

/-- The padding makes up whole groups of four, and no group has a single number. -/
theorem length_sextets : ∀ bytes : List UInt8,
    ((sextets bytes).length + missing bytes) % 4 = 0 ∧ (sextets bytes).length % 4 ≠ 1
  | [] => by decide
  | [_] | [_, _] => by simp [sextets, missing]
  | a :: b :: c :: rest => by
    have hrest := length_sextets rest
    simp only [sextets, missing, List.length_cons] at hrest ⊢
    omega

/-- What a unit of the alphabet is like: it stands for its number, and is neither padding nor white
space. -/
theorem sextet_spec {n : Nat} (hn : n < 64) :
    sextetValue? (sextet n) = some n ∧ sextet n ≠ padding ∧ isSkipped (sextet n) = false := by
  have hall : ∀ n < 64,
      sextetValue? (sextet n) = some n ∧ sextet n ≠ padding ∧ isSkipped (sextet n) = false := by
    decide
  exact hall n hn

/-- Sextets are read back from their units. -/
theorem mapM_sextetValue? {ns : List Nat} (h : ∀ n ∈ ns, n < 64) :
    (ns.map sextet).mapM sextetValue? = some ns := by
  induction ns with
  | nil => rfl
  | cons n ns ih =>
    obtain ⟨hn, hns⟩ := List.forall_mem_cons.mp h
    rw [List.map_cons, List.mapM_cons, (sextet_spec hn).1, ih hns]
    rfl

/-- Padding that fills the last group is taken off again. -/
theorem unpadded_append {body : Text} {k : Nat} (hk : k ≤ 2) (hbody : padding ∉ body)
    (hlength : (body.length + k) % 4 = 0) :
    unpadded (body ++ List.replicate k padding) = body := by
  have hgroups : (body ++ List.replicate k padding).length % 4 = 0 := by
    rw [List.length_append, List.length_replicate, hlength]
  -- two padding units behind the body are two only if the body brings none
  have hnot : ∀ k, k < 2 → ¬ [padding, padding] <:+ body ++ List.replicate k padding := by
    rintro k hk ⟨front, hfront⟩
    have hcount := congrArg (List.count padding) hfront
    rw [List.count_append, List.count_append, List.count_eq_zero_of_not_mem hbody,
      List.count_replicate_self] at hcount
    have htwo : List.count padding [padding, padding] = 2 := rfl
    omega
  rw [unpadded, if_pos hgroups]
  obtain rfl | rfl | rfl : k = 0 ∨ k = 1 ∨ k = 2 := by omega
  · have hone : ¬ [padding] <:+ body ++ List.replicate 0 padding := by
      rintro ⟨front, hfront⟩
      rw [List.replicate_zero, List.append_nil] at hfront
      exact hbody (hfront ▸ List.mem_append_right front List.mem_cons_self)
    rw [if_neg (mt List.isSuffixOf_iff_suffix.mp (hnot 0 (by omega))),
      if_neg (mt List.isSuffixOf_iff_suffix.mp hone), List.replicate_zero, List.append_nil]
  · have hsuffix : [padding] <:+ body ++ List.replicate 1 padding := List.suffix_append body _
    rw [if_neg (mt List.isSuffixOf_iff_suffix.mp (hnot 1 (by omega))),
      if_pos (List.isSuffixOf_iff_suffix.mpr hsuffix), List.length_append, List.length_replicate,
      Nat.add_sub_cancel, List.take_left]
  · have hsuffix : [padding, padding] <:+ body ++ List.replicate 2 padding :=
      List.suffix_append body _
    rw [if_pos (List.isSuffixOf_iff_suffix.mpr hsuffix), List.length_append, List.length_replicate,
      Nat.add_sub_cancel, List.take_left]

/-- Base64 reads back as the bytes that it was written for. -/
theorem decode?_encode (bytes : List UInt8) : decode? (encode bytes) = some bytes := by
  have hlt := lt_of_mem_sextets bytes
  obtain ⟨hgroups, hsingle⟩ := length_sextets bytes
  -- nothing in an encoded text is skipped, and the padding comes off again
  have hkept : (encode bytes).filter (!isSkipped ·) = encode bytes := by
    rw [List.filter_eq_self, encode_eq]
    intro u hu
    obtain hu | hu := List.mem_append.mp hu
    · obtain ⟨n, hn, rfl⟩ := List.mem_map.mp hu
      rw [(sextet_spec (hlt n hn)).2.2, Bool.not_false]
    · rw [List.eq_of_mem_replicate hu]
      rfl
  have hbody : padding ∉ (sextets bytes).map sextet := by
    intro hmem
    obtain ⟨n, hn, hpadding⟩ := List.mem_map.mp hmem
    exact (sextet_spec (hlt n hn)).2.1 hpadding
  have hunpadded : unpadded (encode bytes) = (sextets bytes).map sextet := by
    rw [encode_eq]
    refine unpadded_append ?_ hbody (by rwa [List.length_map])
    unfold missing
    omega
  rw [decode?, hkept, hunpadded, if_neg (by rwa [List.length_map]), mapM_sextetValue? hlt,
    Option.map_some, bytesOfSextets_sextets]

end Base64

/-! ## UTF-8 -/

/-- A character is no surrogate. -/
theorem isValidChar_toNat (c : Char) :
    c.toNat < 0xD800 ∨ 0xDFFF < c.toNat ∧ c.toNat < 0x110000 := c.valid

namespace Utf8

variable {n value after : Nat} {low high b : UInt8} {rest : List UInt8}

/-- A continuation byte carries six bits. -/
theorem toNat_continuation (n : Nat) : (continuation n).toNat = 0x80 + n % 64 := by
  rw [continuation, UInt8.toNat_ofNat']
  omega

/-- A continuation byte is never above `0xBF`. -/
theorem continuation_le (n : Nat) : 0x80 + n % 64 ≤ (0xBF : UInt8).toNat := by
  show 0x80 + n % 64 ≤ 0xBF
  omega

/-- A continuation byte is expected if its bits are within the bounds. -/
theorem isExpected_continuation (hlow : low.toNat ≤ 0x80 + n % 64)
    (hhigh : 0x80 + n % 64 ≤ high.toNat) :
    (decide (low ≤ continuation n) && decide (continuation n ≤ high)) = true := by
  simp only [Bool.and_eq_true, decide_eq_true_eq, UInt8.le_iff_toNat_le, toNat_continuation]
  exact ⟨hlow, hhigh⟩

theorem bits_continuation (n : Nat) : (continuation n).toNat - 0x80 = n % 64 := by
  rw [toNat_continuation, Nat.add_sub_cancel_left]

/-- The last continuation byte adds its six bits and completes a character. -/
theorem decodeFrom_last (hlow : low.toNat ≤ 0x80 + n % 64) (hhigh : 0x80 + n % 64 ≤ high.toNat) :
    decodeFrom (some ⟨value, low, high, 0⟩) (continuation n :: rest)
      = Char.ofNat (value * 64 + n % 64) :: decodeFrom none rest := by
  have hstep : step (some ⟨value, low, high, 0⟩) (continuation n)
      = ([Char.ofNat (value * 64 + n % 64)], none) := by
    simp only [step, isExpected_continuation hlow hhigh, if_true, bits_continuation]
  rw [decodeFrom, hstep]
  rfl

/-- Any other continuation byte adds its bits and leaves the character open. -/
theorem decodeFrom_more (hlow : low.toNat ≤ 0x80 + n % 64) (hhigh : 0x80 + n % 64 ≤ high.toNat) :
    decodeFrom (some ⟨value, low, high, after + 1⟩) (continuation n :: rest)
      = decodeFrom (some ⟨value * 64 + n % 64, 0x80, 0xBF, after⟩) rest := by
  have hstep : step (some ⟨value, low, high, after + 1⟩) (continuation n)
      = ([], some ⟨value * 64 + n % 64, 0x80, 0xBF, after⟩) := by
    simp only [step, isExpected_continuation hlow hhigh, if_true, bits_continuation]
  rw [decodeFrom, hstep]
  rfl

/-- A first byte leaves a character open. -/
theorem decodeFrom_first {p : OpenChar} (h : start b = ([], some p)) :
    decodeFrom none (b :: rest) = decodeFrom (some p) rest := by
  rw [decodeFrom, step, h]
  rfl

/-- A character of two bytes. -/
theorem decodeFrom_two (hlow : 0x80 ≤ n) (hhigh : n < 0x800) :
    decodeFrom none (UInt8.ofNat (0xC0 + n / 64) :: continuation n :: rest)
      = Char.ofNat n :: decodeFrom none rest := by
  have hfirst : (UInt8.ofNat (0xC0 + n / 64)).toNat = 0xC0 + n / 64 := by
    rw [UInt8.toNat_ofNat']
    omega
  have hstart : start (UInt8.ofNat (0xC0 + n / 64)) = ([], some ⟨n / 64, 0x80, 0xBF, 0⟩) := by
    simp only [start, hfirst, Nat.add_sub_cancel_left]
    rw [if_neg (by omega), if_neg (by omega), if_pos (by omega)]
  rw [decodeFrom_first hstart, decodeFrom_last (Nat.le_add_right _ _) (continuation_le n),
    Nat.div_add_mod']

/-- A character of three bytes. The range of the second byte keeps out short characters and
surrogates, and `n` is neither. -/
theorem decodeFrom_three (hlow : 0x800 ≤ n) (hhigh : n < 0x10000)
    (hvalid : n < 0xD800 ∨ 0xDFFF < n) :
    decodeFrom none
        (UInt8.ofNat (0xE0 + n / 4096) :: continuation (n / 64) :: continuation n :: rest)
      = Char.ofNat n :: decodeFrom none rest := by
  have hfirst : (UInt8.ofNat (0xE0 + n / 4096)).toNat = 0xE0 + n / 4096 := by
    rw [UInt8.toNat_ofNat']
    omega
  have hstart : start (UInt8.ofNat (0xE0 + n / 4096)) = ([], some ⟨n / 4096,
      if 0xE0 + n / 4096 = 0xE0 then 0xA0 else 0x80,
      if 0xE0 + n / 4096 = 0xED then 0x9F else 0xBF, 1⟩) := by
    simp only [start, hfirst, Nat.add_sub_cancel_left]
    rw [if_neg (by omega), if_neg (by omega), if_neg (by omega), if_pos (by omega)]
  have hbits : (n / 4096 * 64 + n / 64 % 64) * 64 + n % 64 = n := by omega
  rw [decodeFrom_first hstart, decodeFrom_more,
    decodeFrom_last (Nat.le_add_right _ _) (continuation_le n), hbits]
  -- the bounds on the second byte keep out what would fit into two bytes
  · split
    · show 0xA0 ≤ 0x80 + n / 64 % 64
      omega
    · exact Nat.le_add_right _ _
  -- and the surrogates
  · split
    · show 0x80 + n / 64 % 64 ≤ 0x9F
      omega
    · exact continuation_le _

/-- A character of four bytes. The range of the second byte keeps out short characters and what lies
beyond U+10FFFF, and `n` is neither. -/
theorem decodeFrom_four (hlow : 0x10000 ≤ n) (hhigh : n < 0x110000) :
    decodeFrom none (UInt8.ofNat (0xF0 + n / 262144) :: continuation (n / 4096)
        :: continuation (n / 64) :: continuation n :: rest)
      = Char.ofNat n :: decodeFrom none rest := by
  have hfirst : (UInt8.ofNat (0xF0 + n / 262144)).toNat = 0xF0 + n / 262144 := by
    rw [UInt8.toNat_ofNat']
    omega
  have hstart : start (UInt8.ofNat (0xF0 + n / 262144)) = ([], some ⟨n / 262144,
      if 0xF0 + n / 262144 = 0xF0 then 0x90 else 0x80,
      if 0xF0 + n / 262144 = 0xF4 then 0x8F else 0xBF, 2⟩) := by
    simp only [start, hfirst, Nat.add_sub_cancel_left]
    rw [if_neg (by omega), if_neg (by omega), if_neg (by omega), if_neg (by omega),
      if_pos (by omega)]
  have hbits : ((n / 262144 * 64 + n / 4096 % 64) * 64 + n / 64 % 64) * 64 + n % 64 = n := by omega
  rw [decodeFrom_first hstart, decodeFrom_more,
    decodeFrom_more (Nat.le_add_right _ _) (continuation_le _),
    decodeFrom_last (Nat.le_add_right _ _) (continuation_le n), hbits]
  -- the bounds on the second byte keep out what would fit into three bytes
  · split
    · show 0x90 ≤ 0x80 + n / 4096 % 64
      omega
    · exact Nat.le_add_right _ _
  -- and what is above the last character
  · split
    · show 0x80 + n / 4096 % 64 ≤ 0x8F
      omega
    · exact continuation_le _

/-- An encoded character is decoded as it was, whatever follows. -/
theorem decodeFrom_encodeChar (c : Char) (rest : List UInt8) :
    decodeFrom none (encodeChar c ++ rest) = c :: decodeFrom none rest := by
  have hvalid := isValidChar_toNat c
  unfold encodeChar
  dsimp only
  -- one case for each length
  split
  next hone =>
    have hfirst : (UInt8.ofNat c.toNat).toNat = c.toNat := by
      rw [UInt8.toNat_ofNat']
      omega
    rw [List.singleton_append, decodeFrom, step, start, hfirst, if_pos hone, Char.ofNat_toNat]
    rfl
  next hone =>
    split
    next htwo =>
      rw [List.cons_append, List.singleton_append, decodeFrom_two (by omega) htwo,
        Char.ofNat_toNat]
    next htwo =>
      split
      next hthree =>
        rw [List.cons_append, List.cons_append, List.singleton_append,
          decodeFrom_three (by omega) hthree (by omega), Char.ofNat_toNat]
      next hthree =>
        rw [List.cons_append, List.cons_append, List.cons_append, List.singleton_append,
          decodeFrom_four (by omega) (by omega), Char.ofNat_toNat]

/-- UTF-8 reads back as the characters that it was written for. -/
theorem decode_encode (cs : List Char) : decode (encode cs) = cs := by
  induction cs with
  | nil => rfl
  | cons c cs ih =>
    rw [decode, encode, List.flatMap_cons, decodeFrom_encodeChar]
    exact congrArg (c :: ·) ih

end Utf8

/-! ## UTF-16 -/

namespace CodeUnit

variable {u : CodeUnit}

theorem isHighSurrogate_iff : u.isHighSurrogate = true ↔ 0xD800 ≤ u.toNat ∧ u.toNat ≤ 0xDBFF := by
  simp only [isHighSurrogate, Bool.and_eq_true, decide_eq_true_eq, UInt16.le_iff_toNat_le]
  exact Iff.rfl

theorem isLowSurrogate_iff : u.isLowSurrogate = true ↔ 0xDC00 ≤ u.toNat ∧ u.toNat ≤ 0xDFFF := by
  simp only [isLowSurrogate, Bool.and_eq_true, decide_eq_true_eq, UInt16.le_iff_toNat_le]
  exact Iff.rfl

/-- No unit is a surrogate of both kinds. -/
theorem isLowSurrogate_of_isHighSurrogate (h : u.isHighSurrogate = true) :
    u.isLowSurrogate = false := by
  rw [isHighSurrogate_iff] at h
  rw [Bool.eq_false_iff, ne_eq, isLowSurrogate_iff]
  omega

end CodeUnit

namespace Text

variable {u v : CodeUnit} {t rest : Text}

/-- Whether a surrogate that is not part of a pair stands at the place `i`: a high one without a low
one behind it, or a low one without a high one before it. -/
def isLoneAt (t : Text) (i : Nat) : Bool :=
  t[i]?.any CodeUnit.isHighSurrogate && !t[i + 1]?.any CodeUnit.isLowSurrogate
    || t[i]?.any CodeUnit.isLowSurrogate && !(i != 0 && t[i - 1]?.any CodeUnit.isHighSurrogate)

/-- The text with U+FFFD in place of every surrogate that is not part of a pair. -/
def mended (t : Text) : Text := t.mapIdx fun i u => if t.isLoneAt i then 0xFFFD else u

/-- Every surrogate of the text is part of a pair. -/
def IsWellFormed (t : Text) : Prop := ∀ i < t.length, t.isLoneAt i = false

instance (t : Text) : Decidable t.IsWellFormed :=
  Nat.decidableBallLT t.length fun i _ => t.isLoneAt i = false

/-- A text without lone surrogates is not changed. -/
theorem mended_of_isWellFormed (h : t.IsWellFormed) : t.mended = t := by
  refine List.ext_getElem List.length_mapIdx fun i hi hi' => ?_
  simp only [mended, List.getElem_mapIdx, h i hi', Bool.false_eq_true, if_false]

/-- A unit in front of a text makes a pair with the first unit at most. -/
theorem isLoneAt_cons {i : Nat}
    (h : i ≠ 0 ∨ (u.isHighSurrogate && t.head?.any CodeUnit.isLowSurrogate) = false) :
    isLoneAt (u :: t) (i + 1) = isLoneAt t i := by
  cases i with
  | succ i => rfl
  | zero =>
    have hpair : (u.isHighSurrogate && t[0]?.any CodeUnit.isLowSurrogate) = false := by
      rw [← List.head?_eq_getElem?]
      exact h.resolve_left (· rfl)
    have hlow : (t[0]?.any CodeUnit.isLowSurrogate && !u.isHighSurrogate)
        = t[0]?.any CodeUnit.isLowSurrogate := by
      cases hu : u.isHighSurrogate <;> simp_all
    simp [isLoneAt, hlow]

/-- A unit that does not begin a pair is mended by itself. -/
theorem mended_cons (h : (u.isHighSurrogate && t.head?.any CodeUnit.isLowSurrogate) = false) :
    mended (u :: t)
      = (if u.isHighSurrogate || u.isLowSurrogate then 0xFFFD else u) :: mended t := by
  have hfirst : isLoneAt (u :: t) 0 = (u.isHighSurrogate || u.isLowSurrogate) := by
    rw [List.head?_eq_getElem?] at h
    cases hu : u.isHighSurrogate <;> simp_all [isLoneAt]
  rw [mended, List.mapIdx_cons, hfirst]
  simp only [isLoneAt_cons (.inr h), mended]

/-- A pair of surrogates is left as it is. -/
theorem mended_cons_pair (hu : u.isHighSurrogate = true) (hv : v.isLowSurrogate = true) :
    mended (u :: v :: rest) = u :: v :: mended rest := by
  have hhigh : v.isHighSurrogate = false := by
    rw [Bool.eq_false_iff]
    intro hhigh
    rw [CodeUnit.isLowSurrogate_of_isHighSurrogate hhigh] at hv
    cases hv
  have hfirst : isLoneAt (u :: v :: rest) 0 = false := by
    simp [isLoneAt, hv, CodeUnit.isLowSurrogate_of_isHighSurrogate hu]
  have hsecond : isLoneAt (u :: v :: rest) 1 = false := by
    simp [isLoneAt, hu, hv, hhigh]
  have hrest : ∀ i, isLoneAt (u :: v :: rest) (i + 1 + 1) = isLoneAt rest i := by
    intro i
    rw [isLoneAt_cons (.inl i.succ_ne_zero), isLoneAt_cons (.inr (by rw [hhigh, Bool.false_and]))]
  rw [mended, List.mapIdx_cons, List.mapIdx_cons, hfirst, hsecond]
  simp only [hrest, mended, Bool.false_eq_true, if_false]

theorem toNat_ofNat_of_isValidChar {n : Nat} (h : n.isValidChar) : (Char.ofNat n).toNat = n := by
  rw [Char.ofNat, dif_pos h]
  rfl

/-- A unit on its own is a character, or an unpaired surrogate that is replaced. -/
theorem ofChars_characters_singleton (u : CodeUnit) :
    ofChars (characters [u]) = [if u.isHighSurrogate || u.isLowSurrogate then 0xFFFD else u] := by
  cases hsurrogate : u.isHighSurrogate || u.isLowSurrogate with
  | true =>
    rw [characters, scalars, scalarOfUnit, hsurrogate]
    rfl
  | false =>
    have hlt := u.toNat_lt
    have hvalid : u.toNat.isValidChar := by
      rw [Bool.or_eq_false_iff, Bool.eq_false_iff, Bool.eq_false_iff, ne_eq, ne_eq,
        CodeUnit.isHighSurrogate_iff, CodeUnit.isLowSurrogate_iff] at hsurrogate
      show u.toNat < 0xD800 ∨ 0xDFFF < u.toNat ∧ u.toNat < 0x110000
      omega
    have hunit : ofChar (Char.ofNat u.toNat) = [u] := by
      rw [ofChar, toNat_ofNat_of_isValidChar hvalid, if_pos hlt, UInt16.ofNat_toNat]
    rw [characters, scalars, scalarOfUnit, hsurrogate]
    exact (List.append_nil _).trans hunit

/-- The character of a pair is written as the pair. -/
theorem ofChar_charOfPair (hu : u.isHighSurrogate = true) (hv : v.isLowSurrogate = true) :
    ofChar (charOfPair u v) = [u, v] := by
  rw [CodeUnit.isHighSurrogate_iff] at hu
  rw [CodeUnit.isLowSurrogate_iff] at hv
  have hvalid : (0x10000 + (u.toNat - 0xD800) * 0x400 + (v.toNat - 0xDC00)).isValidChar := by
    right
    omega
  have hoffset : 0x10000 + (u.toNat - 0xD800) * 0x400 + (v.toNat - 0xDC00) - 0x10000
      = (u.toNat - 0xD800) * 0x400 + (v.toNat - 0xDC00) := by omega
  have hhigh : 0xD800 + ((u.toNat - 0xD800) * 0x400 + (v.toNat - 0xDC00)) / 0x400 = u.toNat := by
    omega
  have hlow : 0xDC00 + ((u.toNat - 0xD800) * 0x400 + (v.toNat - 0xDC00)) % 0x400 = v.toNat := by
    omega
  rw [charOfPair, ofChar, toNat_ofNat_of_isValidChar hvalid, if_neg (by omega), hoffset]
  dsimp only
  rw [hhigh, hlow, UInt16.ofNat_toNat, UInt16.ofNat_toNat]

/-- The characters of a text are those of the text in which lone surrogates are replaced. -/
theorem ofChars_characters (t : Text) : ofChars t.characters = t.mended := by
  induction t using scalars.induct with
  | case1 => rfl
  | case2 u =>
    rw [mended_cons (by simp)]
    exact ofChars_characters_singleton u
  -- a pair is one character, and comes back as the two units
  | case3 u v rest hpair ih =>
    obtain ⟨hu, hv⟩ := Bool.and_eq_true_iff.mp hpair
    have hcharacters : characters (u :: v :: rest) = charOfPair u v :: characters rest := by
      rw [characters, scalars, if_pos hpair]
      rfl
    rw [mended_cons_pair hu hv, ← ih, hcharacters, ofChars, List.flatMap_cons,
      ofChar_charOfPair hu hv]
    rfl
  -- a unit that begins no pair stays if it is a character, and is replaced if it is a surrogate
  | case4 u v rest hpair ih =>
    rw [Bool.not_eq_true] at hpair
    have hcharacters : characters (u :: v :: rest) = characters [u] ++ characters (v :: rest) := by
      rw [characters, scalars, hpair]
      rfl
    rw [mended_cons hpair, ← ih, hcharacters, ofChars, List.flatMap_append]
    exact congrArg (· ++ ofChars (characters (v :: rest))) (ofChars_characters_singleton u)

end Text

end Plume
