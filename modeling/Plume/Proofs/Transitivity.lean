import Mathlib.Data.List.Forall2
import Plume.Proofs.Comparing
import Plume.Proofs.Exactness
import Plume.Proofs.Rounding

/-!
# Chains of comparisons

Of three values, the first and the last are compared by way of the one in the middle. Among values
without floats nothing is lost on that way: `<` is transitive, and equal values compare alike with
everything (`Value.compare_trans_and_congr`).

With floats, equality is not transitive. Two integers are compared exactly, an integer and a float
only after the integer has been rounded, so that two different integers may both equal one float
(`Value.equal_not_transitive`). This is the only way in which it fails: a chain of two equations
closes unless a float stands between two different integers (`Value.equal_chain`).

## Shape of the proof

The order of two lists is that of their first items, and then that of the rest
(`compareItems_cons`). The facts on lists follow from those on their items by induction on the
lists, with `pair_induction` around it. For equality, numbers are equal if they have the same rank
as floats and are not two different integers (`Number.equal_iff_rank?`), and having the same rank is
transitive.
-/

namespace Plume

/-! ## One comparison after another -/

/-- How things compare that are compared in one respect and then, if they are equal in that, in
another. -/
def Comparison.andThen : Comparison → Comparison → Comparison
  | .ordered .eq, second => second
  | first, _ => first

/-- A comparison that is settled does not look further. -/
theorem Comparison.andThen_of_ne {c : Comparison} (h : c ≠ .ordered .eq) (d : Comparison) :
    c.andThen d = c := by
  rcases c with (_ | _ | _) | _ | _
  · rfl
  · exact absurd rfl h
  · rfl
  · rfl
  · rfl

/-- Less in the first place, or equal there and less further on. -/
theorem Comparison.andThen_eq_lt_iff {c d : Comparison} :
    c.andThen d = .ordered .lt ↔ c = .ordered .lt ∨ c = .ordered .eq ∧ d = .ordered .lt := by
  rcases c with (_ | _ | _) | _ | _ <;> simp [andThen]

namespace Value

variable {a b c : Value}

/-- Lists are compared by their first items, and then by the others. -/
theorem compareItems_cons (x y : Value) (xs ys : List Value) :
    compareItems (x :: xs) (y :: ys) = (x.compare y).andThen (compareItems xs ys) := by
  rw [compareItems]
  by_cases h : x.equal y = true
  · rw [if_pos h, (compare_eq_iff x y).mpr h, Comparison.andThen]
  · have hne : x.compare y ≠ .ordered .eq := mt (compare_eq_iff x y).mp h
    rw [if_neg h, Comparison.andThen_of_ne hne]

/-- Values that are in order are of one family. -/
theorem family_eq_of_ordered {o : Ordering} (h : a.compare b = .ordered o) :
    a.family = b.family := by
  by_contra hapart
  rw [compare_of_apart hapart] at h
  cases h

theorem family_eq_of_equal (h : a.equal b = true) : a.family = b.family :=
  family_eq_of_ordered ((compare_eq_iff a b).mpr h)

theorem family_of_number? {n : Number} (h : a.number? = some n) : a.family = .number := by
  rcases a with _ | _ | _ | _
  · rfl
  · rfl
  · cases h
  · cases h

/-! ## Values without floats -/

/-- Numbers without floats are equal only if they are the same. -/
theorem number?_eq_of_equal (ha : a.FloatFree) (hb : b.FloatFree) {m n : Number}
    (hm : a.number? = some m) (hn : b.number? = some n) (h : a.equal b = true) : m = n := by
  obtain ⟨i, rfl⟩ := exists_int_of_number? ha hm
  obtain ⟨j, rfl⟩ := exists_int_of_number? hb hn
  rw [equal_of_number? hm hn] at h
  exact congrArg Number.int (beq_iff_eq.mp h)

/-- A list without floats has items without floats. -/
theorem floatFree_items {items : List Value} (h : (Value.list items).FloatFree) :
    ∀ v ∈ items, v.FloatFree :=
  (everywhere_list.mp h).2

/-- Equal lists compare alike with any list, if that is so of their items. -/
theorem compareItems_congr {xs ys zs : List Value}
    (h : ∀ x ∈ xs, ∀ y ∈ ys, ∀ z ∈ zs, y.equal z = true → x.compare y = x.compare z)
    (heq : equalItems ys zs = true) : compareItems xs ys = compareItems xs zs := by
  induction xs generalizing ys zs with
  | nil =>
    rcases ys with _ | ⟨y, ys⟩ <;> rcases zs with _ | ⟨z, zs⟩
    · rfl
    · cases heq
    · cases heq
    · rfl
  | cons x xs ih =>
    rcases ys with _ | ⟨y, ys⟩ <;> rcases zs with _ | ⟨z, zs⟩
    · rfl
    · cases heq
    · cases heq
    · rw [equalItems, Bool.and_eq_true] at heq
      -- the first items compare alike, and so do the others
      have hfirst : x.compare y = x.compare z :=
        h x List.mem_cons_self y List.mem_cons_self z List.mem_cons_self heq.1
      have hrest : compareItems xs ys = compareItems xs zs := by
        refine ih (fun x' hx y' hy z' hz => ?_) heq.2
        exact h x' (List.mem_cons_of_mem x hx) y' (List.mem_cons_of_mem y hy) z'
          (List.mem_cons_of_mem z hz)
      rw [compareItems_cons, compareItems_cons, hfirst, hrest]

/-- A value compares alike with values that are equal and hold no float. It may hold floats
itself. -/
theorem compare_congr_right (a : Value) {b c : Value} (hb : b.FloatFree) (hc : c.FloatFree)
    (h : b.equal c = true) : a.compare b = a.compare c := by
  induction a, b using pair_induction generalizing c with
  | apart a b hapart =>
    have hapart' : a.family ≠ c.family := by
      rwa [← family_eq_of_equal h]
    rw [compare_of_apart hapart, compare_of_apart hapart']
  -- without floats, equal numbers are the same integer
  | numbers a b m n hm hn =>
    obtain ⟨k, hk⟩ := exists_number? ((family_eq_of_equal h).symm.trans (family_of_number? hn))
    rw [compare_of_number? hm hn, compare_of_number? hm hk, number?_eq_of_equal hb hc hn hk h]
  | texts s t =>
    obtain ⟨u, rfl⟩ := exists_str (family_eq_of_equal h).symm
    rw [equal, beq_iff_eq] at h
    rw [h]
  | lists xs ys ih =>
    obtain ⟨zs, rfl⟩ := exists_list (family_eq_of_equal h).symm
    rw [equal] at h
    rw [compare, compare]
    refine compareItems_congr (fun x hx y hy z hz => ?_) h
    exact ih x hx y hy (floatFree_items hb y hy) (floatFree_items hc z hz)

/-- Equal values without floats compare alike with any value. -/
theorem compare_congr_left (ha : a.FloatFree) (hb : b.FloatFree) (h : a.equal b = true)
    (c : Value) : a.compare c = b.compare c := by
  rw [compare_swap c a, compare_swap c b, compare_congr_right c ha hb h]

/-- `<` of lists without floats is transitive, if that is so of their items. -/
theorem compareItems_trans {xs ys zs : List Value} (hxs : ∀ x ∈ xs, x.FloatFree)
    (hys : ∀ y ∈ ys, y.FloatFree) (hzs : ∀ z ∈ zs, z.FloatFree)
    (h : ∀ x ∈ xs, ∀ y ∈ ys, ∀ z ∈ zs, x.compare y = .ordered .lt → y.compare z = .ordered .lt →
      x.compare z = .ordered .lt)
    (hxy : compareItems xs ys = .ordered .lt) (hyz : compareItems ys zs = .ordered .lt) :
    compareItems xs zs = .ordered .lt := by
  induction xs generalizing ys zs with
  | nil =>
    rcases ys with _ | ⟨y, ys⟩
    · cases hxy
    · rcases zs with _ | ⟨z, zs⟩
      · cases hyz
      · rfl
  | cons x xs ih =>
    rcases ys with _ | ⟨y, ys⟩
    · cases hxy
    rcases zs with _ | ⟨z, zs⟩
    · cases hyz
    obtain ⟨hx, hxs⟩ := List.forall_mem_cons.mp hxs
    obtain ⟨hy, hys⟩ := List.forall_mem_cons.mp hys
    obtain ⟨hz, hzs⟩ := List.forall_mem_cons.mp hzs
    rw [compareItems_cons, Comparison.andThen_eq_lt_iff] at hxy hyz ⊢
    -- the first items differ on both sides, on one side only, or on neither
    rcases hxy with hxy | ⟨hxy, hxys⟩
    · left
      rcases hyz with hyz | ⟨hyz, -⟩
      · exact h x List.mem_cons_self y List.mem_cons_self z List.mem_cons_self hxy hyz
      · rwa [← compare_congr_right x hy hz ((compare_eq_iff y z).mp hyz)]
    · have hequal : x.compare z = y.compare z :=
        compare_congr_left hx hy ((compare_eq_iff x y).mp hxy) z
      rcases hyz with hyz | ⟨hyz, hyzs⟩
      · left
        rwa [hequal]
      · right
        refine ⟨hequal.trans hyz, ih hxs hys hzs (fun x' hx' y' hy' z' hz' => ?_) hxys hyzs⟩
        exact h x' (List.mem_cons_of_mem x hx') y' (List.mem_cons_of_mem y hy') z'
          (List.mem_cons_of_mem z hz')

/-- `<` of values without floats is transitive. -/
theorem compare_trans (ha : a.FloatFree) (hb : b.FloatFree) (hc : c.FloatFree)
    (hab : a.compare b = .ordered .lt) (hbc : b.compare c = .ordered .lt) :
    a.compare c = .ordered .lt := by
  induction a, b using pair_induction generalizing c with
  | apart a b hapart =>
    rw [compare_of_apart hapart] at hab
    cases hab
  -- without floats the numbers are integers, compared exactly
  | numbers a b m n hm hn =>
    obtain ⟨k, hk⟩ :=
      exists_number? ((family_eq_of_ordered hbc).symm.trans (family_of_number? hn))
    obtain ⟨i, rfl⟩ := exists_int_of_number? ha hm
    obtain ⟨j, rfl⟩ := exists_int_of_number? hb hn
    obtain ⟨l, rfl⟩ := exists_int_of_number? hc hk
    rw [compare_of_number? hm hn] at hab
    rw [compare_of_number? hn hk] at hbc
    rw [compare_of_number? hm hk]
    have hij : Ord.compare i j = .lt := Comparison.ordered.inj hab
    have hjl : Ord.compare j l = .lt := Comparison.ordered.inj hbc
    exact congrArg Comparison.ordered (Std.TransCmp.lt_trans hij hjl)
  | texts s t =>
    obtain ⟨u, rfl⟩ := exists_str (family_eq_of_ordered hbc).symm
    rw [compare] at hab hbc ⊢
    have hst : Ord.compare s t = .lt := Comparison.ordered.inj hab
    have htu : Ord.compare t u = .lt := Comparison.ordered.inj hbc
    exact congrArg Comparison.ordered (Std.TransCmp.lt_trans hst htu)
  -- the items are in order by the induction hypothesis, and so the lists
  | lists xs ys ih =>
    obtain ⟨zs, rfl⟩ := exists_list (family_eq_of_ordered hbc).symm
    rw [compare] at hab hbc ⊢
    have hxs := floatFree_items ha
    have hys := floatFree_items hb
    have hzs := floatFree_items hc
    refine compareItems_trans hxs hys hzs (fun x hx y hy z hz => ?_) hab hbc
    exact ih x hx y hy (hxs x hx) (hys y hy) (hzs z hz)

/-- Values without floats are strictly ordered by `<`: no value is less than itself, and if one is
less than a second, which is less than a third, then the first is less than the third. A value
compares alike with any two that are equal, also if it has no order with them. -/
theorem compare_trans_and_congr (ha : a.FloatFree) (hb : b.FloatFree) (hc : c.FloatFree) :
    a.compare a ≠ .ordered .lt
      ∧ (a.compare b = .ordered .lt → b.compare c = .ordered .lt → a.compare c = .ordered .lt)
      ∧ (b.equal c = true → a.compare b = a.compare c) := by
  refine ⟨?_, compare_trans ha hb hc, compare_congr_right a hb hc⟩
  intro hlt
  have hswap := compare_swap a a
  rw [hlt] at hswap
  cases hswap

/-- `[True, ["x"], 5]` is less than `[1, ["x", 0], "s"]`, which is less than `[1, ["y"], []]` and
equal to `[True, ["x", False], "s"]`. The last items have no order and are never reached. -/
theorem compare_trans_and_congr_nested :
    let a : Value := .list [.bool true, .list [.str "x"], .int 5]
    let b : Value := .list [.int 1, .list [.str "x", .int 0], .str "s"]
    let b' : Value := .list [.bool true, .list [.str "x", .bool false], .str "s"]
    let c : Value := .list [.int 1, .list [.str "y"], .list []]
    a.FloatFree ∧ b.FloatFree ∧ b'.FloatFree ∧ c.FloatFree
      ∧ a.compare c = .ordered .lt ∧ a.compare b = a.compare b' := by
  intro a b b' c
  have ha : a.FloatFree := by
    simp [a, FloatFree, everywhere_list, everywhere_bool, everywhere_str, everywhere_number,
      Value.int, typeName]
  have hb : b.FloatFree := by
    simp [b, FloatFree, everywhere_list, everywhere_str, everywhere_number, Value.int, typeName]
  have hb' : b'.FloatFree := by
    simp [b', FloatFree, everywhere_list, everywhere_bool, everywhere_str, typeName]
  have hc : c.FloatFree := by
    simp [c, FloatFree, everywhere_list, everywhere_str, everywhere_number, Value.int, typeName]
  have hab : a.compare b = .ordered .lt := by rfl
  have hbc : b.compare c = .ordered .lt := by rfl
  have hbb' : b.equal b' = true := by rfl
  exact ⟨ha, hb, hb', hc, (compare_trans_and_congr ha hb hc).2.1 hab hbc,
    (compare_trans_and_congr ha hb hb').2.2 hbb'⟩

end Value

/-! ## Numbers as floats -/

namespace Binary64

/-- Floats are equal if they have the same rank. NaN has none. -/
theorem equal_iff_rank? {x y : Binary64} :
    x.equal y = true ↔ ∃ r, x.rank? = some r ∧ y.rank? = some r := by
  unfold equal compare?
  cases x.rank? with
  | none => simp
  | some r =>
    cases y.rank? with
    | none => simp
    | some r' =>
      rw [beq_iff_eq, Option.some.injEq, Std.LawfulEqCmp.compare_eq_iff_eq]
      constructor
      · rintro rfl
        exact ⟨r, rfl, rfl⟩
      · rintro ⟨_, ⟨⟩, ⟨⟩⟩
        rfl

/-- Every float has a rank but one. -/
theorem exists_rank? {x : Binary64} (h : x ≠ .nan) : ∃ r, x.rank? = some r := by
  rcases x with _ | _ | _
  · exact ⟨_, rfl⟩
  · exact ⟨_, rfl⟩
  · exact absurd rfl h

/-- An integer is never rounded to what is no number. -/
theorem ofInt_ne_nan (n : Int) : ofInt n ≠ .nan := by
  unfold ofInt ofRatio ofOrdinal
  dsimp only
  split
  · rintro ⟨⟩
  · rintro ⟨⟩

/-- Integers up to `2 ^ 53` are not rounded. -/
theorem rank?_ofInt {n : Int} (h : n.natAbs ≤ 2 ^ 53) :
    (ofInt n).rank? = some (n * unitsPerOne) := by
  by_cases hzero : n = 0
  · subst hzero
    decide +kernel
  obtain ⟨e, f, hunits⟩ := exists_unitsOf_eq (Int.natAbs_pos.mpr hzero) h
  have hexact : ofInt n = .finite (n < 0) e f := by
    have hround := ofRatio_unitsOf (n < 0) Nat.one_pos e f
    rwa [Nat.mul_one, hunits] at hround
  rw [hexact, rank?, hunits, Nat.cast_mul]
  generalize (unitsPerOne : Int) = one
  by_cases hneg : n < 0
  · have habs : (n.natAbs : Int) = -n := by omega
    rw [if_pos (decide_eq_true hneg), habs, neg_mul, neg_neg]
  · have habs : (n.natAbs : Int) = n := by omega
    rw [if_neg (by simpa using hneg), habs]

end Binary64

namespace Number

/-- The rank of a number among the floats. -/
theorem exists_rank?_toFloat {m : Number} (h : m ≠ .float .nan) :
    ∃ r, m.toFloat.rank? = some r := by
  rcases m with n | x
  · exact Binary64.exists_rank? (Binary64.ofInt_ne_nan n)
  · exact Binary64.exists_rank? fun hnan => h (congrArg Number.float hnan)

/-- Numbers are equal if they have the same rank as floats and are not two different integers. -/
theorem equal_iff_rank? {m n : Number} :
    m.equal n = true ↔ (∃ r, m.toFloat.rank? = some r ∧ n.toFloat.rank? = some r)
      ∧ ∀ i j, m = .int i → n = .int j → i = j := by
  rcases m with i | x
  · rcases n with j | y
    · obtain ⟨r, hr⟩ := exists_rank?_toFloat (m := .int i) (by rintro ⟨⟩)
      constructor
      · intro h
        obtain rfl : i = j := beq_iff_eq.mp h
        refine ⟨⟨r, hr, hr⟩, ?_⟩
        rintro _ _ ⟨⟩ ⟨⟩
        rfl
      · rintro ⟨-, h⟩
        exact beq_iff_eq.mpr (h i j rfl rfl)
    · refine Binary64.equal_iff_rank?.trans (iff_self_and.mpr ?_)
      rintro - _ _ - ⟨⟩
  · refine Binary64.equal_iff_rank?.trans (iff_self_and.mpr ?_)
    rintro - _ _ ⟨⟩

/-- A chain of two equations closes unless its ends are different integers. -/
theorem equal_chain_iff {m n k : Number} (hmn : m.equal n = true) (hnk : n.equal k = true) :
    m.equal k = true ↔ ∀ i j, m = .int i → k = .int j → i = j := by
  obtain ⟨⟨r, hm, hn⟩, -⟩ := equal_iff_rank?.mp hmn
  obtain ⟨⟨r', hn', hk⟩, -⟩ := equal_iff_rank?.mp hnk
  obtain rfl : r = r' := Option.some.inj (hn.symm.trans hn')
  rw [equal_iff_rank?]
  exact and_iff_right ⟨r, hm, hk⟩

end Number

/-! ## Equality of values -/

namespace Value

variable {a b c : Value}

/-- There is no NaN in the value. -/
def NaNFree (v : Value) : Prop := v.Everywhere fun w => w ≠ .float .nan

/-- Every integer in the value is at most `2 ^ 53` in magnitude, so that a float can hold it. -/
def FitsFloats (v : Value) : Prop :=
  v.Everywhere fun w => ∀ n, w.integer? = some n → n.natAbs ≤ 2 ^ 53

/-- At some place of three values a float stands between two different integers. -/
inductive FloatBetween : Value → Value → Value → Prop
  | here {a c : Value} {x : Binary64} {m n : Int} :
      a.integer? = some m → c.integer? = some n → m ≠ n → FloatBetween a (.number (.float x)) c
  | item {xs ys zs : List Value} {x y z : Value} (i : Nat) :
      xs[i]? = some x → ys[i]? = some y → zs[i]? = some z → FloatBetween x y z →
        FloatBetween (.list xs) (.list ys) (.list zs)

theorem integer?_of_number? {n : Int} (h : a.number? = some (.int n)) : a.integer? = some n := by
  match a, h with
  | .number (.int i), rfl => rfl
  | .bool b, rfl => rfl

theorem eq_of_number?_eq_float {x : Binary64} (h : a.number? = some (.float x)) :
    a = .number (.float x) := by
  match a, h with
  | .number n, h => exact congrArg Value.number (Option.some.inj h)

/-- Lists are equal item by item. -/
theorem equalItems_iff {xs ys : List Value} :
    equalItems xs ys = true ↔ List.Forall₂ (fun x y => x.equal y = true) xs ys := by
  induction xs generalizing ys with
  | nil => rcases ys with _ | ⟨y, ys⟩ <;> simp [equalItems]
  | cons x xs ih => rcases ys with _ | ⟨y, ys⟩ <;> simp [equalItems, ih]

/-- A value without NaN equals itself. -/
theorem equal_self (h : a.NaNFree) : a.equal a = true := by
  -- the induction is on two values, so the second is given a name of its own
  obtain ⟨b, hb⟩ : ∃ b, b = a := ⟨a, rfl⟩
  nth_rw 2 [← hb]
  induction a, b using pair_induction with
  | apart a b hapart => exact absurd (congrArg family hb.symm) hapart
  | numbers a b m n hm hn =>
    subst hb
    obtain rfl : m = n := Option.some.inj (hm.symm.trans hn)
    rw [equal_of_number? hm hn, Number.equal_iff_rank?]
    have hnan : m ≠ .float .nan := by
      rintro rfl
      exact h _ .self (eq_of_number?_eq_float hm)
    obtain ⟨r, hr⟩ := Number.exists_rank?_toFloat hnan
    refine ⟨⟨r, hr, hr⟩, ?_⟩
    rintro i j rfl hj
    exact Number.int.inj hj
  | texts s t =>
    rw [equal, beq_iff_eq]
    exact (Value.str.inj hb).symm
  | lists xs ys ih =>
    obtain rfl := Value.list.inj hb
    rw [equal, equalItems_iff, List.forall₂_same]
    intro x hx
    exact ih x hx x hx ((everywhere_list.mp h).2 x hx) rfl

/-- Equality looks the same from both sides. -/
theorem equal_symm (h : a.equal b = true) : b.equal a = true := by
  rw [equal_comm_of_swap (compare_swap a b)]
  exact h

/-- What a float stands between is not equal. -/
theorem FloatBetween.not_equal (h : FloatBetween a b c) : a.equal c = false := by
  induction h with
  | here hm hn hne =>
    rw [equal_of_number? (number?_of_integer? hm) (number?_of_integer? hn)]
    exact beq_eq_false_iff_ne.mpr hne
  | @item xs ys zs x y z i hx _ hz _ ih =>
    rw [equal, ← Bool.not_eq_true, equalItems_iff, List.forall₂_iff_get]
    rintro ⟨-, hitems⟩
    obtain ⟨hi, rfl⟩ := List.getElem?_eq_some_iff.mp hx
    obtain ⟨hi', rfl⟩ := List.getElem?_eq_some_iff.mp hz
    have heq := hitems i hi hi'
    rw [List.get_eq_getElem, List.get_eq_getElem, ih] at heq
    cases heq

/-- A float between two items is one between longer lists. -/
theorem FloatBetween.cons {xs ys zs : List Value} (x y z : Value)
    (h : FloatBetween (.list xs) (.list ys) (.list zs)) :
    FloatBetween (.list (x :: xs)) (.list (y :: ys)) (.list (z :: zs)) := by
  cases h with
  | item i hx hy hz hitem => exact .item (i + 1) hx hy hz hitem

/-- Two equations between lists close to a third, or a float stands between integers, if that is so
of their items. -/
theorem equalItems_chain {xs ys zs : List Value}
    (h : ∀ x ∈ xs, ∀ z ∈ zs, ∀ y, x.equal y = true → y.equal z = true →
      x.equal z = true ∨ FloatBetween x y z)
    (hxy : equalItems xs ys = true) (hyz : equalItems ys zs = true) :
    equalItems xs zs = true ∨ FloatBetween (.list xs) (.list ys) (.list zs) := by
  induction xs generalizing ys zs with
  | nil =>
    rcases ys with _ | ⟨y, ys⟩
    · exact .inl hyz
    · cases hxy
  | cons x xs ih =>
    rcases ys with _ | ⟨y, ys⟩
    · cases hxy
    rcases zs with _ | ⟨z, zs⟩
    · cases hyz
    rw [equalItems, Bool.and_eq_true] at hxy hyz ⊢
    have hrest := ih (fun x' hx z' hz => h x' (List.mem_cons_of_mem x hx) z'
      (List.mem_cons_of_mem z hz)) hxy.2 hyz.2
    -- a float between the first items, or between some of the others, is one between the lists
    rcases h x List.mem_cons_self z List.mem_cons_self y hxy.1 hyz.1 with hfirst | hbetween
    · rcases hrest with hrest | hbetween
      · exact .inl ⟨hfirst, hrest⟩
      · exact .inr (hbetween.cons x y z)
    · exact .inr (.item 0 rfl rfl rfl hbetween)

/-- Two equations close to a third, or a float stands between integers. -/
theorem equal_or_floatBetween (hab : a.equal b = true) (hbc : b.equal c = true) :
    a.equal c = true ∨ FloatBetween a b c := by
  have hfamily := (family_eq_of_equal hab).trans (family_eq_of_equal hbc)
  induction a, c using pair_induction generalizing b with
  | apart a c hapart => exact absurd hfamily hapart
  | numbers a c m k hm hk =>
    obtain ⟨n, hn⟩ := exists_number? ((family_eq_of_equal hab).symm.trans (family_of_number? hm))
    rw [equal_of_number? hm hn] at hab
    rw [equal_of_number? hn hk] at hbc
    rw [equal_of_number? hm hk, Number.equal_chain_iff hab hbc]
    by_cases hdiffer : ∃ i j, m = .int i ∧ k = .int j ∧ i ≠ j
    · right
      obtain ⟨i, j, rfl, rfl, hne⟩ := hdiffer
      rcases n with l | x
      · -- an integer in the middle is the same as both
        obtain rfl : i = l := beq_iff_eq.mp hab
        exact absurd (beq_iff_eq.mp hbc) hne
      · rw [eq_of_number?_eq_float hn]
        exact .here (integer?_of_number? hm) (integer?_of_number? hk) hne
    · left
      intro i j hi hj
      by_contra hne
      exact hdiffer ⟨i, j, hi, hj, hne⟩
  | texts s u =>
    left
    obtain ⟨t, rfl⟩ := exists_str (family_eq_of_equal hab).symm
    rw [equal, beq_iff_eq] at hab hbc ⊢
    exact hab.trans hbc
  | lists xs zs ih =>
    obtain ⟨ys, rfl⟩ := exists_list (family_eq_of_equal hab).symm
    rw [equal] at hab hbc ⊢
    refine equalItems_chain (fun x hx z hz y hxy hyz => ?_) hab hbc
    exact ih x hx z hz hxy hyz ((family_eq_of_equal hxy).trans (family_eq_of_equal hyz))

/-- No float stands between integers that floats can hold. -/
theorem FloatBetween.not_fitsFloats (h : FloatBetween a b c) (hab : a.equal b = true)
    (hbc : b.equal c = true) : ¬ (a.FitsFloats ∧ c.FitsFloats) := by
  rintro ⟨ha, hc⟩
  induction h with
  | @here a c x m n hm hn hne =>
    rw [equal_of_number? (number?_of_integer? hm) rfl] at hab
    rw [equal_of_number? rfl (number?_of_integer? hn)] at hbc
    obtain ⟨⟨r, hr, hx⟩, -⟩ := Number.equal_iff_rank?.mp hab
    obtain ⟨⟨r', hx', hr'⟩, -⟩ := Number.equal_iff_rank?.mp hbc
    obtain rfl : r = r' := Option.some.inj (hx.symm.trans hx')
    -- both integers have the rank of the float between them, and none of them was rounded
    have hrank : (Binary64.ofInt m).rank? = (Binary64.ofInt n).rank? := hr.trans hr'.symm
    rw [Binary64.rank?_ofInt (ha _ .self m hm), Binary64.rank?_ofInt (hc _ .self n hn)] at hrank
    have hone : (Binary64.unitsPerOne : Int) ≠ 0 := by decide +kernel
    exact hne (Int.eq_of_mul_eq_mul_right hone (Option.some.inj hrank))
  | @item xs ys zs x y z i hx hy hz _ ih =>
    rw [equal, equalItems_iff, List.forall₂_iff_get] at hab hbc
    obtain ⟨hi, rfl⟩ := List.getElem?_eq_some_iff.mp hx
    obtain ⟨hj, rfl⟩ := List.getElem?_eq_some_iff.mp hy
    obtain ⟨hk, rfl⟩ := List.getElem?_eq_some_iff.mp hz
    exact ih (hab.2 i hi hj) (hbc.2 i hj hk) ((everywhere_list.mp ha).2 _ (List.getElem_mem hi))
      ((everywhere_list.mp hc).2 _ (List.getElem_mem hk))

/-- The integers `2 ^ 53` and `2 ^ 53 + 1` both equal the float `2 ^ 53`, and they differ. -/
theorem equal_not_transitive :
    ¬ ∀ a b c : Value, a.NaNFree → b.NaNFree → c.NaNFree → a.equal b = true → b.equal c = true →
      a.equal c = true := by
  intro htrans
  have hint : ∀ n, (Value.number (.int n)).NaNFree := fun n => everywhere_number (by rintro ⟨⟩)
  have hfloat : (Value.number (.float (.ofInt 9007199254740992))).NaNFree :=
    everywhere_number fun h => Binary64.ofInt_ne_nan _ (Number.float.inj (Value.number.inj h))
  have hequal := htrans (.number (.int 9007199254740992))
    (.number (.float (.ofInt 9007199254740992))) (.number (.int 9007199254740993))
    (hint _) hfloat (hint _) (by decide +kernel) (by decide +kernel)
  revert hequal
  decide +kernel

/-- A value without NaN equals itself, and values that are equal are so from both sides. If a first
value equals a second and that a third, then the first equals the third, except where a float of the
second stands between two different integers. So equality is an equivalence of the values without
NaN whose integers floats can hold. -/
theorem equal_chain :
    (∀ a : Value, a.NaNFree → a.equal a = true)
      ∧ (∀ a b : Value, a.equal b = true → b.equal a = true)
      ∧ (∀ a b c : Value, a.equal b = true → b.equal c = true →
        (a.equal c = true ↔ ¬ FloatBetween a b c))
      ∧ Equivalence fun a b : { v : Value // v.NaNFree ∧ v.FitsFloats } =>
        a.val.equal b.val = true := by
  refine ⟨fun a => equal_self, fun a b => equal_symm, fun a b c hab hbc => ⟨?_, ?_⟩, ?_⟩
  · intro hac hbetween
    rw [hbetween.not_equal] at hac
    cases hac
  · intro hnot
    exact (equal_or_floatBetween hab hbc).resolve_right hnot
  · refine ⟨fun a => equal_self a.property.1, equal_symm, ?_⟩
    intro a b c hab hbc
    refine (equal_or_floatBetween hab hbc).resolve_right fun hbetween => ?_
    exact hbetween.not_fitsFloats hab hbc ⟨a.property.2, c.property.2⟩

/-- `[[1], "s"]` equals `[[1.0], "s"]` and that `[[True], "s"]`, which closes. With `2 ^ 53` and
`2 ^ 53 + 1` at the ends and a float between them it does not. -/
theorem equal_chain_nested :
    let one : Value := .number (.float (.ofInt 1))
    let a : Value := .list [.list [.int 1], .str "s"]
    let b : Value := .list [.list [one], .str "s"]
    let c : Value := .list [.list [.bool true], .str "s"]
    let large : Value := .number (.float (.ofInt 9007199254740992))
    let a' : Value := .list [.list [.int 9007199254740992], .str "s"]
    let b' : Value := .list [.list [large], .str "s"]
    let c' : Value := .list [.list [.int 9007199254740993], .str "s"]
    (a.NaNFree ∧ a.equal a = true)
      ∧ (a.equal b = true ∧ b.equal c = true ∧ b.equal a = true ∧ a.equal c = true)
      ∧ (a'.equal b' = true ∧ b'.equal c' = true ∧ FloatBetween a' b' c'
        ∧ a'.equal c' = false) := by
  intro one a b c large a' b' c'
  obtain ⟨hself, hsymm, hchain, hequivalence⟩ := equal_chain
  have ha : a.NaNFree ∧ a.FitsFloats := by
    simp [a, NaNFree, FitsFloats, everywhere_list, everywhere_str, everywhere_number, Value.int,
      Value.float, integer?]
  have hb : b.NaNFree ∧ b.FitsFloats := by
    simp [b, one, NaNFree, FitsFloats, everywhere_list, everywhere_str, everywhere_number,
      Value.float, integer?, Binary64.ofInt_ne_nan]
  have hc : c.NaNFree ∧ c.FitsFloats := by
    simp [c, NaNFree, FitsFloats, everywhere_list, everywhere_str, everywhere_bool, Value.float,
      integer?]
  have hab : a.equal b = true := by decide +kernel
  have hbc : b.equal c = true := by decide +kernel
  have hac : a.equal c = true :=
    hequivalence.trans (x := ⟨a, ha⟩) (y := ⟨b, hb⟩) (z := ⟨c, hc⟩) hab hbc
  have hab' : a'.equal b' = true := by decide +kernel
  have hbc' : b'.equal c' = true := by decide +kernel
  have hbetween : FloatBetween a' b' c' :=
    .item 0 rfl rfl rfl (.item 0 rfl rfl rfl (.here rfl rfl (by decide)))
  have hac' : a'.equal c' = false := by
    rw [← Bool.not_eq_true, hchain a' b' c' hab' hbc', not_not]
    exact hbetween
  exact ⟨⟨ha.1, hself a ha.1⟩, ⟨hab, hbc, hsymm a b hab, hac⟩, hab', hbc', hbetween, hac'⟩

end Value

end Plume
