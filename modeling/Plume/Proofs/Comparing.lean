import Plume.Value.Operation

/-!
# Equality and order

Equality and order are two recursions over values. Equality goes through two lists item by item,
while the order skips what is equal and settles on the first items that are not. They agree: values
compare as equal exactly if they are equal (`Value.compare_agrees_with_equal`), and both treat their
two sides alike, so that swapping the sides swaps the outcome (`Value.compare_mirrors`).

## Shape of the proof

Values belong to three families, and only values of one family are ever equal or ordered. An
induction over two values at once (`Value.pair_induction`) has a case for each family and one for
values of two families. The equations behind it say what equality and order are in each case, and
the lemmas on items carry a fact from the items to the lists. The relations of the language see no
more of two values than their comparison (`Value.operate_relation`).
-/

namespace Plume

/-! ## Numbers -/

/-- Numbers compare as equal exactly if they are equal. -/
theorem Number.compare?_eq_iff (m n : Number) : m.compare? n = some .eq ↔ m.equal n = true := by
  cases m <;> cases n <;> simp [compare?, equal, Binary64.equal]

/-- Swapping two floats swaps their order, and NaN has none on either side. -/
theorem Binary64.compare?_swap (x y : Binary64) :
    y.compare? x = (x.compare? y).map Ordering.swap := by
  unfold compare?
  cases x.rank? with
  | none => cases y.rank? <;> rfl
  | some a =>
    cases y.rank? with
    | none => rfl
    | some b => exact congrArg some Std.OrientedCmp.eq_swap

/-- Numbers compare the other way round from the other side. -/
theorem Number.compare?_swap (m n : Number) :
    n.compare? m = (m.compare? n).map Ordering.swap := by
  cases m with
  | int i =>
    cases n with
    | int j => exact congrArg some Std.OrientedCmp.eq_swap
    | float y => exact Binary64.compare?_swap _ _
  | float x => cases n <;> exact Binary64.compare?_swap _ _

/-! ## Two values -/

namespace Value

/-- What a value can be compared with. -/
inductive Family where
  | number
  | text
  | list
  deriving DecidableEq

/-- The family of a value. Truth values count as numbers. -/
def family : Value → Family
  | .number _ | .bool _ => .number
  | .str _ => .text
  | .list _ => .list

variable {a b : Value}

theorem exists_number? (h : a.family = .number) : ∃ n, a.number? = some n := by
  cases a with
  | number n => exact ⟨n, rfl⟩
  | bool b => exact ⟨_, rfl⟩
  | str t => cases h
  | list items => cases h

theorem exists_str (h : a.family = .text) : ∃ t, a = .str t := by
  cases a with
  | str t => exact ⟨t, rfl⟩
  | number n => cases h
  | bool b => cases h
  | list items => cases h

theorem exists_list (h : a.family = .list) : ∃ items, a = .list items := by
  cases a with
  | list items => exact ⟨items, rfl⟩
  | number n => cases h
  | bool b => cases h
  | str t => cases h

/-- What holds of two values of different families, of numbers, of strings, and of lists if it holds
of any two of their items, holds of any two values. -/
@[elab_as_elim]
theorem pair_induction {P : Value → Value → Prop}
    (apart : ∀ a b, a.family ≠ b.family → P a b)
    (numbers : ∀ a b m n, a.number? = some m → b.number? = some n → P a b)
    (texts : ∀ s t, P (.str s) (.str t))
    (lists : ∀ xs ys, (∀ x ∈ xs, ∀ y ∈ ys, P x y) → P (.list xs) (.list ys))
    (a b : Value) : P a b := by
  by_cases h : a.family = b.family
  · cases hb : b.family with
    | number =>
      obtain ⟨m, hm⟩ := exists_number? (h.trans hb)
      obtain ⟨n, hn⟩ := exists_number? hb
      exact numbers a b m n hm hn
    | text =>
      obtain ⟨s, rfl⟩ := exists_str (h.trans hb)
      obtain ⟨t, rfl⟩ := exists_str hb
      exact texts s t
    | list =>
      obtain ⟨xs, ha⟩ := exists_list (h.trans hb)
      obtain ⟨ys, rfl⟩ := exists_list hb
      -- the items are smaller than the list that they stand in
      have hitems : ∀ x ∈ xs, ∀ y ∈ ys, P x y := fun x hx y _ =>
        have hlt : sizeOf x < sizeOf a :=
          ha ▸ Nat.lt_of_lt_of_le (List.sizeOf_lt_of_mem hx) (by simp)
        pair_induction apart numbers texts lists x y
      exact ha ▸ lists xs ys hitems
  · exact apart a b h
termination_by sizeOf a

/-! ### What equality and order are -/

theorem equal_of_number? {m n : Number} (ha : a.number? = some m) (hb : b.number? = some n) :
    a.equal b = m.equal n := by
  cases a <;> cases b <;> simp_all [equal, number?]

theorem compare_of_number? {m n : Number} (ha : a.number? = some m) (hb : b.number? = some n) :
    a.compare b = (m.compare? n).elim .unordered .ordered := by
  cases a <;> cases b <;> simp_all [compare, number?] <;> split <;> simp_all

/-- Values of different families are never equal. -/
theorem equal_of_apart (h : a.family ≠ b.family) : a.equal b = false := by
  cases a <;> cases b <;> simp_all [family, equal, number?]

/-- Values of different families cannot be compared. -/
theorem compare_of_apart (h : a.family ≠ b.family) : a.compare b = .incomparable := by
  cases a <;> cases b <;> simp_all [family, compare, number?]

/-! ## Equality and order agree -/

/-- Lists compare as equal exactly if they are equal, if that is so of their items. -/
theorem compareItems_eq_iff {xs ys : List Value}
    (h : ∀ x ∈ xs, ∀ y ∈ ys, (x.compare y = .ordered .eq ↔ x.equal y = true)) :
    compareItems xs ys = .ordered .eq ↔ equalItems xs ys = true := by
  induction xs generalizing ys with
  | nil => cases ys <;> simp [compareItems, equalItems]
  | cons x xs ih =>
    cases ys with
    | nil => simp [compareItems, equalItems]
    | cons y ys =>
      have hfirst := h x List.mem_cons_self y List.mem_cons_self
      have hrest := ih fun x' hx y' hy =>
        h x' (List.mem_cons_of_mem x hx) y' (List.mem_cons_of_mem y hy)
      rw [compareItems, equalItems]
      by_cases hxy : x.equal y = true
      · rw [if_pos hxy, hxy, Bool.true_and]
        exact hrest
      · -- unequal items settle the order, and do not compare as equal
        rw [if_neg hxy, hfirst, Bool.and_eq_true]
        exact ⟨fun heq => absurd heq hxy, fun hboth => hboth.1⟩

/-- Values compare as equal exactly if they are equal. -/
theorem compare_eq_iff (a b : Value) : a.compare b = .ordered .eq ↔ a.equal b = true := by
  induction a, b using pair_induction with
  | apart a b h => simp [equal_of_apart h, compare_of_apart h]
  | numbers a b m n hm hn =>
    rw [compare_of_number? hm hn, equal_of_number? hm hn, ← Number.compare?_eq_iff]
    cases m.compare? n <;> simp
  | texts s t => simp [compare, equal]
  | lists xs ys ih =>
    rw [compare, equal]
    exact compareItems_eq_iff ih

end Value

/-! ## Swapping the sides -/

/-- How two values stand to each other seen from the other side. -/
def Comparison.swap : Comparison → Comparison
  | .ordered o => .ordered o.swap
  | .unordered => .unordered
  | .incomparable => .incomparable

theorem Comparison.swap_eq_iff {c : Comparison} : c.swap = .ordered .eq ↔ c = .ordered .eq := by
  cases c <;> simp [swap]

namespace Value

/-- Values that compare from both sides alike are equal from both sides. -/
theorem equal_comm_of_swap {a b : Value} (h : b.compare a = (a.compare b).swap) :
    b.equal a = a.equal b := by
  rw [Bool.eq_iff_iff, ← compare_eq_iff, ← compare_eq_iff, h]
  exact Comparison.swap_eq_iff

/-- Swapping two lists swaps their order, if that is so of their items. -/
theorem compareItems_swap {xs ys : List Value}
    (h : ∀ x ∈ xs, ∀ y ∈ ys, y.compare x = (x.compare y).swap) :
    compareItems ys xs = (compareItems xs ys).swap := by
  induction xs generalizing ys with
  | nil => cases ys <;> simp [compareItems, Comparison.swap]
  | cons x xs ih =>
    cases ys with
    | nil => simp [compareItems, Comparison.swap]
    | cons y ys =>
      have hfirst := h x List.mem_cons_self y List.mem_cons_self
      have hrest := ih fun x' hx y' hy =>
        h x' (List.mem_cons_of_mem x hx) y' (List.mem_cons_of_mem y hy)
      -- both sides come upon the first unequal items at the same place
      rw [compareItems, compareItems, equal_comm_of_swap hfirst]
      by_cases hxy : x.equal y = true
      · rw [if_pos hxy, if_pos hxy]
        exact hrest
      · rw [if_neg hxy, if_neg hxy]
        exact hfirst

/-- Swapping two values swaps their order. -/
theorem compare_swap (a b : Value) : b.compare a = (a.compare b).swap := by
  induction a, b using pair_induction with
  | apart a b h => rw [compare_of_apart h, compare_of_apart h.symm, Comparison.swap]
  | numbers a b m n hm hn =>
    rw [compare_of_number? hm hn, compare_of_number? hn hm, Number.compare?_swap m n]
    cases m.compare? n <;> rfl
  | texts s t =>
    rw [compare, compare, Comparison.swap]
    exact congrArg Comparison.ordered Std.OrientedCmp.eq_swap
  | lists xs ys ih =>
    rw [compare, compare]
    exact compareItems_swap ih

end Value

/-! ## Relations -/

namespace Relation

/-- Whether a relation asks for an order: all but `==` and `!=` do. -/
def isOrdering : Relation → Bool
  | .eq | .ne => false
  | .lt | .gt | .le | .ge => true

/-- The relation that holds of two values exactly if this one holds of them the other way round. -/
def mirror : Relation → Relation
  | .eq => .eq
  | .ne => .ne
  | .lt => .gt
  | .gt => .lt
  | .le => .ge
  | .ge => .le

/-- The truth of a relation for values that compare in the given way. There is none for values
without an order. -/
def verdict? (op : Relation) : Comparison → Option Bool
  | .ordered o => some (op.holds o)
  | .unordered => some false
  | .incomparable => none

theorem isOrdering_mirror (op : Relation) : op.mirror.isOrdering = op.isOrdering := by
  cases op <;> rfl

/-- Only values that cannot be compared are without a verdict. -/
theorem verdict?_eq_none_iff {op : Relation} {c : Comparison} :
    op.verdict? c = none ↔ c = .incomparable := by
  cases c <;> simp [verdict?]

/-- From the other side, the mirrored relation gives the same verdict. -/
theorem verdict?_mirror (op : Relation) (c : Comparison) :
    op.mirror.verdict? c.swap = op.verdict? c := by
  rcases c with o | _ | _
  · cases op <;> cases o <;> rfl
  · rfl
  · rfl

end Relation

namespace Value

/-- A relation is true of two values. -/
def Holds (op : Relation) (a b : Value) : Prop := operate (.relation op) a b = .ok (.bool true)

/-- A relation stops at two values with a type error. -/
def RaisesTypeError (op : Relation) (a b : Value) : Prop :=
  ∃ p, operate (.relation op) a b = .error (.problem p) ∧ p.kind = .type

/-- A relation that asks for an order sees no more of two values than how they compare. -/
theorem operate_relation {op : Relation} (hop : op.isOrdering = true) (a b : Value) :
    operate (.relation op) a b = (op.verdict? (a.compare b)).elim
      (.error (.problem (.unorderable op a.typeName b.typeName)))
      fun truth => .ok (.bool truth) := by
  cases op with
  | eq => cases hop
  | ne => cases hop
  | lt | gt | le | ge =>
    simp only [operate, relate]
    cases a.compare b <;> rfl

/-- An ordering has the truth value that the verdict is. -/
theorem operate_of_verdict? {op : Relation} (hop : op.isOrdering = true) {a b : Value}
    {truth : Bool} (h : op.verdict? (a.compare b) = some truth) :
    operate (.relation op) a b = .ok (.bool truth) := by
  rw [operate_relation hop, h]
  rfl

/-- An ordering without a verdict is a type error. -/
theorem raisesTypeError_of_verdict? {op : Relation} (hop : op.isOrdering = true) {a b : Value}
    (h : op.verdict? (a.compare b) = none) : RaisesTypeError op a b := by
  refine ⟨.unorderable op a.typeName b.typeName, ?_, rfl⟩
  rw [operate_relation hop, h]
  rfl

/-- An ordering holds exactly where the verdict says so. -/
theorem holds_iff {op : Relation} (hop : op.isOrdering = true) (a b : Value) :
    Holds op a b ↔ op.verdict? (a.compare b) = some true := by
  rw [Holds, operate_relation hop]
  rcases op.verdict? (a.compare b) with _ | _ | _ <;> simp

/-- `==` is true of values that compare as equal. -/
theorem holds_eq_iff (a b : Value) : Holds .eq a b ↔ a.compare b = .ordered .eq := by
  have hoperate : operate (.relation .eq) a b = .ok (.bool (a.equal b)) := rfl
  rw [Holds, hoperate, compare_eq_iff]
  cases a.equal b <;> simp

/-- Any two values compare as equal exactly if they are equal. So `<=` is true of them exactly if
`<` or `==` is, and `>=` exactly if `>` or `==` is. Either all four relations that ask for an order
stop with a type error, or all four are true or false. -/
theorem compare_agrees_with_equal (a b : Value) :
    (a.compare b = .ordered .eq ↔ a.equal b = true)
      ∧ (Holds .le a b ↔ Holds .lt a b ∨ Holds .eq a b)
      ∧ (Holds .ge a b ↔ Holds .gt a b ∨ Holds .eq a b)
      ∧ ((∀ op : Relation, op.isOrdering = true → RaisesTypeError op a b)
        ∨ ∀ op : Relation, op.isOrdering = true →
          ∃ truth, operate (.relation op) a b = .ok (.bool truth)) := by
  refine ⟨compare_eq_iff a b, ?_, ?_, ?_⟩
  · rw [holds_iff rfl, holds_iff rfl, holds_eq_iff]
    rcases a.compare b with (_ | _ | _) | _ | _ <;> decide
  · rw [holds_iff rfl, holds_iff rfl, holds_eq_iff]
    rcases a.compare b with (_ | _ | _) | _ | _ <;> decide
  -- all four orderings look at one and the same comparison, so they fail together
  · by_cases hc : a.compare b = .incomparable
    · left
      intro op hop
      exact raisesTypeError_of_verdict? hop (Relation.verdict?_eq_none_iff.mpr hc)
    · right
      intro op hop
      have hsome : op.verdict? (a.compare b) ≠ none := mt Relation.verdict?_eq_none_iff.mp hc
      obtain ⟨truth, htruth⟩ := Option.ne_none_iff_exists'.mp hsome
      exact ⟨truth, operate_of_verdict? hop htruth⟩

/-- `[1, [nan]]` and `[True, [nan, 0]]` differ at a NaN, `[1, [nan]]` and `[True, ""]` where there
is no order. -/
theorem compare_agrees_with_equal_nested :
    let a : Value := .list [.int 1, .list [.float .nan]]
    let b : Value := .list [.bool true, .list [.float .nan, .int 0]]
    let c : Value := .list [.bool true, .str []]
    (¬ Holds .le a b ∧ ∃ truth, operate (.relation .ge) a b = .ok (.bool truth))
      ∧ RaisesTypeError .le a c ∧ RaisesTypeError .ge a c := by
  intro a b c
  have hle : operate (.relation .le) a b = .ok (.bool false) := rfl
  obtain ⟨p, hstop⟩ : ∃ p, operate (.relation .le) a c = .error p := ⟨_, rfl⟩
  obtain ⟨-, -, -, hab⟩ := compare_agrees_with_equal a b
  obtain ⟨-, -, -, hac⟩ := compare_agrees_with_equal a c
  constructor
  · rcases hab with hraises | hdecides
    · obtain ⟨p, hp, -⟩ := hraises .le rfl
      cases hle.symm.trans hp
    · refine ⟨fun hholds => ?_, hdecides .ge rfl⟩
      cases hle.symm.trans hholds
  · rcases hac with hraises | hdecides
    · exact ⟨hraises .le rfl, hraises .ge rfl⟩
    · obtain ⟨truth, htruth⟩ := hdecides .le rfl
      cases hstop.symm.trans htruth

/-- Swapping any two values changes nothing about their equality, and swaps their order: the greater
is then the less, and values that are equal, that have a NaN where they differ, or that have no
order stay so. A relation and its mirror image are both true, both false or both a type error. -/
theorem compare_mirrors (a b : Value) :
    a.equal b = b.equal a
      ∧ b.compare a = (a.compare b).swap
      ∧ ∀ op : Relation,
        (∃ truth, operate (.relation op) a b = .ok (.bool truth)
            ∧ operate (.relation op.mirror) b a = .ok (.bool truth))
          ∨ RaisesTypeError op a b ∧ RaisesTypeError op.mirror b a := by
  have hequal : a.equal b = b.equal a := (equal_comm_of_swap (compare_swap a b)).symm
  refine ⟨hequal, compare_swap a b, ?_⟩
  intro op
  by_cases hop : op.isOrdering = true
  -- an ordering is read off from the comparison
  · have hmirror : op.mirror.isOrdering = true := op.isOrdering_mirror.trans hop
    have hverdict : op.mirror.verdict? (b.compare a) = op.verdict? (a.compare b) := by
      rw [compare_swap a b, op.verdict?_mirror]
    cases hc : op.verdict? (a.compare b) with
    | none =>
      right
      exact ⟨raisesTypeError_of_verdict? hop hc,
        raisesTypeError_of_verdict? hmirror (hverdict.trans hc)⟩
    | some truth =>
      left
      exact ⟨truth, operate_of_verdict? hop hc, operate_of_verdict? hmirror (hverdict.trans hc)⟩
  -- `==` and `!=` never fail, and equality looks the same from both sides
  · left
    cases op with
    | eq =>
      refine ⟨a.equal b, rfl, ?_⟩
      rw [hequal]
      rfl
    | ne =>
      refine ⟨!a.equal b, rfl, ?_⟩
      rw [hequal]
      rfl
    | lt | gt | le | ge => exact absurd rfl hop

end Value

end Plume
