import Plume.Proofs.Exactness
import Plume.Proofs.Lengths
import Plume.Proofs.Rounding
import Plume.Script

/-!
# Repeating strings and lists

A string or list times a count is as many copies of it, one behind the other. The count may stand on
either side, and one below zero counts as zero. What would be too long is an error that names the
length. Strings and lists behave alike in this, and repeating by a sum is joining what is repeated
by its terms (`Value.operate_mul_repeats`).

They differ in their faults. Counts beyond the floats are a fault for the empty string, which a
bound on the count keeps out. A list of more than `maxStacked` items cannot be copied even once,
although the product may be far shorter than `maxSequenceLength` (`Value.exceedsStack`).
`run_copiedList` is a script that ends there.
-/

namespace Plume

/-! ## Repeated lists -/

section Repeated

variable {α : Type}

theorem repeated_add (m n : Nat) (l : List α) :
    repeated (m + n) l = repeated m l ++ repeated n l := by
  rw [repeated_eq, repeated_eq, repeated_eq, ← List.flatten_append, List.replicate_append_replicate]

/-- The items of a repetition come round and round. -/
theorem getElem?_repeated {l : List α} {n i : Nat} (h : i < l.length * n) :
    (repeated n l)[i]? = l[i % l.length]? := by
  induction n generalizing i with
  | zero => omega
  | succ n ih =>
    rw [repeated_succ]
    by_cases hfirst : i < l.length
    · rw [List.getElem?_append_left hfirst, Nat.mod_eq_of_lt hfirst]
    · have hle : l.length ≤ i := by omega
      have hrest : i - l.length < l.length * n := by
        rw [Nat.mul_succ] at h
        omega
      rw [List.getElem?_append_right hle, ih hrest, ← Nat.mod_eq_sub_mod hle]

end Repeated

/-- The message names the length and the limit. -/
theorem Problem.message_tooLong (length line : Nat) :
    (Problem.tooLong length).message line
      = "sequence length " ++ Text.ofNat length ++ " exceeds 10000000" := by
  have hlimit : (" exceeds " : Text) ++ Text.ofNat maxSequenceLength = " exceeds 10000000" := by
    decide +kernel
  rw [Problem.message, List.append_assoc, hlimit]

/-! ## Strings and lists -/

namespace Value

/-- Whether a value is a string or a list. -/
def isSequence : Value → Bool
  | .str _ | .list _ => true
  | .number _ | .bool _ => false

/-- What stands at an index of a string or list: the unit there as a string of its own, or the
item. -/
def item? : Value → Nat → Option Value
  | .str t, i => t[i]?.map fun u => .str [u]
  | .list items, i => items[i]?
  | .number _, _ | .bool _, _ => none

/-- A string or list written `n` times. -/
def repetition (n : Nat) : Value → Value
  | .str t => .str (repeated n t)
  | .list items => .list (repeated n items)
  | v => v

variable {s n : Value} {count : Int}

theorem typeName_repetition (k : Nat) (s : Value) : (s.repetition k).typeName = s.typeName := by
  rcases s with (_ | _) | _ | _ | _ <;> rfl

/-- A repetition is as many times as long. -/
theorem length_repetition (k : Nat) (s : Value) : (s.repetition k).length = s.length * k := by
  rcases s with _ | _ | t | items
  · exact (Nat.zero_mul k).symm
  · exact (Nat.zero_mul k).symm
  · exact length_repeated k t
  · exact length_repeated k items

/-- The items of a repetition come round and round. -/
theorem item?_repetition {k i : Nat} (h : i < s.length * k) :
    (s.repetition k).item? i = s.item? (i % s.length) := by
  rcases s with _ | _ | t | items
  · rfl
  · rfl
  · exact congrArg (Option.map _) (getElem?_repeated h)
  · exact getElem?_repeated h

/-- There is an item at every index within the length. -/
theorem exists_item? {i : Nat} (h : i < s.length) : ∃ v, s.item? i = some v := by
  rcases s with _ | _ | t | items
  · exact absurd h (Nat.not_lt_zero i)
  · exact absurd h (Nat.not_lt_zero i)
  · exact ⟨.str [t[i]], by rw [item?, List.getElem?_eq_getElem h]; rfl⟩
  · exact ⟨items[i], List.getElem?_eq_getElem h⟩

/-! ## Products -/

/-- Whether a copy is asked for of a list with more items than the stack has room for. -/
def exceedsStack (k : Nat) : Value → Bool
  | .list items => decide (0 < k ∧ maxStacked < items.length)
  | .number _ | .bool _ | .str _ => false

/-- What the product of a string or list and a count is: its copies, the error that it would be too
long, or the fault that the stack has no room for it. -/
def product (s : Value) (k : Nat) : Except (Stop Problem) Value :=
  if s.length * k ≤ maxSequenceLength then
    if s.exceedsStack k then .error (.fault .stackExceeded) else .ok (s.repetition k)
  else .error (.problem (.tooLong (s.length * k)))

/-- The copies, where neither limit is met. -/
theorem product_of_le {k : Nat} (hle : s.length * k ≤ maxSequenceLength)
    (hstack : s.exceedsStack k = false) : s.product k = .ok (s.repetition k) := by
  rw [product, if_pos hle, hstack]
  rfl

/-- Fewer copies do not need more of the stack. -/
theorem exceedsStack_mono {k l : Nat} (hkl : k ≤ l) (h : s.exceedsStack l = false) :
    s.exceedsStack k = false := by
  cases s with
  | list items =>
    rw [exceedsStack, decide_eq_false_iff_not] at h ⊢
    exact fun hk => h ⟨hk.1.trans_le hkl, hk.2⟩
  | _ => rfl

/-- A float holds every count by which a string is repeated, unless the string is empty. -/
theorem isInfinite_ofInt_of_length_le {t : Text}
    (hempty : t = [] → count.natAbs < 2 ^ 1024 - 2 ^ 970)
    (hle : t.length * count.toNat ≤ maxSequenceLength) :
    ¬ (0 < count ∧ (Binary64.ofInt count).isInfinite = true) := by
  rintro ⟨hpos, hinfinite⟩
  rw [Binary64.isInfinite_ofInt_iff] at hinfinite
  have hlimit : maxSequenceLength < 2 ^ 1024 - 2 ^ 970 := by decide +kernel
  generalize 2 ^ 1024 - 2 ^ 970 = bound at *
  by_cases ht : t = []
  · exact absurd hinfinite (Nat.not_le.mpr (hempty ht))
  · have hcopies := Nat.le_mul_of_pos_left count.toNat (List.length_pos_iff.mpr ht)
    omega

/-- What comes behind the check of a length, or the failure of the check. -/
theorem checkLength_bind (length : Nat) (f : Unit → Except (Stop Problem) Value) :
    checkLength length >>= f
      = if length ≤ maxSequenceLength then f () else .error (.problem (.tooLong length)) := by
  unfold checkLength
  split <;> rfl

/-- A repetition is the product, or fails as the product does. -/
theorem times?_eq (hs : s.isSequence = true)
    (hempty : s = .str [] → count.natAbs < 2 ^ 1024 - 2 ^ 970) :
    s.times? count = some (s.product count.toNat) := by
  rcases s with _ | _ | t | items
  · cases hs
  · cases hs
  -- a text: within the bound on lengths the count is one that floats can hold
  · rw [times?, checkLength_bind, product, length]
    by_cases hle : t.length * count.toNat ≤ maxSequenceLength
    · have hfinite := isInfinite_ofInt_of_length_le (fun ht => hempty (ht ▸ rfl)) hle
      rw [if_pos hle, if_pos hle, if_neg hfinite]
      rfl
    · rw [if_neg hle, if_neg hle]
  -- a list: a copy is asked for, of a list that is too long for the stack, or not
  · have hcopies : 0 < count ∧ maxStacked < items.length
        ↔ 0 < count.toNat ∧ maxStacked < items.length := by omega
    rw [times?, checkLength_bind, product, length, exceedsStack]
    by_cases hstack : 0 < count.toNat ∧ maxStacked < items.length
    · rw [if_pos (hcopies.mpr hstack), decide_eq_true hstack]
      rfl
    · rw [if_neg (hcopies.not.mpr hstack), decide_eq_false hstack]
      rfl

/-- The count may stand on either side. -/
theorem operate_mul_eq_product (hs : s.isSequence = true) (hn : n.integer? = some count)
    (hempty : s = .str [] → count.natAbs < 2 ^ 1024 - 2 ^ 970) :
    operate (.arithmetic .mul) s n = s.product count.toNat
      ∧ operate (.arithmetic .mul) n s = s.product count.toNat := by
  have hnumber : s.number? = none ∧ s.integer? = none := by
    rcases s with _ | _ | _ | _
    · cases hs
    · cases hs
    · exact ⟨rfl, rfl⟩
    · exact ⟨rfl, rfl⟩
  have htimes := times?_eq hs hempty
  constructor
  · exact operate_mul_of_times? hnumber.1 hnumber.2 (.inl ⟨rfl, hn⟩) htimes
  · exact operate_mul_of_times? hnumber.1 hnumber.2 (.inr ⟨rfl, hn⟩) htimes

/-- Joining copies gives the copies together. -/
theorem operate_add_repetition (hs : s.isSequence = true) {k l : Nat}
    (hle : s.length * (k + l) ≤ maxSequenceLength) :
    operate (.arithmetic .add) (s.repetition k) (s.repetition l) = .ok (s.repetition (k + l)) := by
  have hlengths : (s.repetition k).length + (s.repetition l).length ≤ maxSequenceLength := by
    rwa [length_repetition, length_repetition, ← Nat.mul_add]
  rcases s with _ | _ | t | items
  · cases hs
  · cases hs
  · show _ = Except.ok (str (repeated (k + l) t))
    rw [repeated_add]
    exact (checkLength_bind _ _).trans (if_pos hlengths)
  · show _ = Except.ok (list (repeated (k + l) items))
    rw [repeated_add]
    exact (checkLength_bind _ _).trans (if_pos hlengths)

/-- A string or list times an integer or truth value, on either side, is as many copies of it, none
if the integer is negative. If these are longer than allowed, the product is an error that names
their length; else it is of the same type and has that length, and its items are those of the string
or list over and over. Repeating by a sum is joining what is repeated by its terms. All of this
fails, by a fault, for just those lists of which the stack has no room for a copy. -/
theorem operate_mul_repeats (hs : s.isSequence = true) (hn : n.integer? = some count)
    (hempty : s = .str [] → count.natAbs < 10 ^ 300) :
    operate (.arithmetic .mul) s n = operate (.arithmetic .mul) n s
      ∧ (maxSequenceLength < s.length * count.toNat →
        ∃ p, operate (.arithmetic .mul) s n = .error (.problem p) ∧ p.kind = .memory
          ∧ ∀ line, p.message line
            = "sequence length " ++ Text.ofNat (s.length * count.toNat) ++ " exceeds 10000000")
      ∧ (s.length * count.toNat ≤ maxSequenceLength → s.exceedsStack count.toNat = false →
        ∃ v, operate (.arithmetic .mul) s n = .ok v ∧ v.typeName = s.typeName
          ∧ v.length = s.length * count.toNat
          ∧ ∀ i < v.length, ∃ item, v.item? i = some item ∧ s.item? (i % s.length) = some item)
      ∧ (s.length * count.toNat ≤ maxSequenceLength → s.exceedsStack count.toNat = true →
        operate (.arithmetic .mul) s n = .error (.fault .stackExceeded))
      ∧ ∀ k l : Nat, (s = .str [] → k < 10 ^ 300 ∧ l < 10 ^ 300) →
        s.length * (k + l) ≤ maxSequenceLength → s.exceedsStack (k + l) = false →
        ∃ sum first second whole, operate (.arithmetic .add) (.int k) (.int l) = .ok sum
          ∧ operate (.arithmetic .mul) s sum = .ok whole
          ∧ operate (.arithmetic .mul) s (.int k) = .ok first
          ∧ operate (.arithmetic .mul) s (.int l) = .ok second
          ∧ operate (.arithmetic .add) first second = .ok whole := by
  have hbound : 10 ^ 300 + 10 ^ 300 ≤ 2 ^ 1024 - 2 ^ 970 := by decide +kernel
  have hproduct := operate_mul_eq_product hs hn fun h => (hempty h).trans_le (by omega)
  refine ⟨hproduct.1.trans hproduct.2.symm, ?_, ?_, ?_, ?_⟩
  · intro hlt
    refine ⟨.tooLong (s.length * count.toNat), ?_, rfl, Problem.message_tooLong _⟩
    rw [hproduct.1, product, if_neg (Nat.not_le.mpr hlt)]
  · intro hle hstack
    refine ⟨s.repetition count.toNat, ?_, typeName_repetition _ s, length_repetition _ s, ?_⟩
    · rw [hproduct.1, product_of_le hle hstack]
    · intro i hi
      rw [length_repetition] at hi
      have hpos : 0 < s.length := Nat.pos_of_mul_pos_right (Nat.zero_lt_of_lt hi)
      obtain ⟨item, hitem⟩ := exists_item? (Nat.mod_lt i hpos)
      exact ⟨item, (item?_repetition hi).trans hitem, hitem⟩
  · intro hle hstack
    rw [hproduct.1, product, if_pos hle, if_pos hstack]
  · intro k l hkl hle hstack
    -- each of the three products is of at most `k + l` copies, and so within both limits
    have hmul : ∀ m : Nat, m ≤ k + l →
        operate (.arithmetic .mul) s (.int m) = .ok (s.repetition m) := by
      intro m hm
      have hm' : s.length * m ≤ maxSequenceLength := (Nat.mul_le_mul_left _ hm).trans hle
      have hcopies := (operate_mul_eq_product hs (n := .int m) rfl fun h => ?_).1
      · rw [hcopies, Int.toNat_natCast, product_of_le hm' (exceedsStack_mono hm hstack)]
      · have hk := (hkl h).1
        have hl := (hkl h).2
        omega
    refine ⟨.int ((k + l : Nat) : Int), s.repetition k, s.repetition l, s.repetition (k + l), ?_,
      hmul _ le_rfl, hmul k (by omega), hmul l (by omega), operate_add_repetition hs hle⟩
    rw [Nat.cast_add]
    exact (operate_of_integer? rfl rfl).1

/-- `"ab"` can be repeated three times, and that is `"ab"` twice and once more, but not ten thousand
million times. `True` is one copy, and the empty string can be repeated as often. -/
theorem operate_mul_repeats_pairs :
    let s : Value := .str "ab"
    (operate (.arithmetic .mul) s (.int 3) = operate (.arithmetic .mul) (.int 3) s
        ∧ ∃ v, operate (.arithmetic .mul) s (.int 3) = .ok v ∧ v.length = 6
          ∧ ∀ i < 6, ∃ item, v.item? i = some item ∧ s.item? (i % 2) = some item)
      ∧ (∃ first second whole, operate (.arithmetic .mul) s (.int 2) = .ok first
        ∧ operate (.arithmetic .mul) s (.int 1) = .ok second
        ∧ operate (.arithmetic .add) first second = .ok whole)
      ∧ (∃ p, operate (.arithmetic .mul) s (.int 10000000000) = .error (.problem p)
        ∧ p.message 1 = "sequence length 20000000000 exceeds 10000000")
      ∧ (∃ v, operate (.arithmetic .mul) (.list [s]) (.bool true) = .ok v ∧ v.length = 1)
      ∧ ∃ v, operate (.arithmetic .mul) (.str []) (.int 10000000000) = .ok v ∧ v.length = 0 := by
  intro s
  have hne : s ≠ .str [] := fun h => absurd (Value.str.inj h) (by decide)
  obtain ⟨hcomm, -, hthree, -, hsum⟩ :=
    operate_mul_repeats (s := s) (n := .int 3) rfl rfl fun h => absurd h hne
  obtain ⟨v, hv, -, hlength, hitems⟩ := hthree (by decide) rfl
  obtain ⟨-, first, second, whole, -, -, hfirst, hsecond, hwhole⟩ :=
    hsum 2 1 (fun h => absurd h hne) (by decide) rfl
  obtain ⟨-, hmany, -, -, -⟩ :=
    operate_mul_repeats (s := s) (n := .int 10000000000) rfl rfl fun h => absurd h hne
  obtain ⟨p, hp, -, hmessage⟩ := hmany (by decide)
  obtain ⟨-, -, honce, -, -⟩ :=
    operate_mul_repeats (s := .list [s]) (n := .bool true) rfl rfl (by rintro ⟨⟩)
  obtain ⟨w, hw, -, hwlength, -⟩ := honce (by decide) rfl
  obtain ⟨-, -, hnone, -, -⟩ :=
    operate_mul_repeats (s := .str []) (n := .int 10000000000) rfl rfl fun _ => by decide +kernel
  obtain ⟨empty, hempty, -, hemptyLength, -⟩ := hnone (by decide) rfl
  have hlengths : v.length = 6 := hlength.trans (by decide)
  rw [hlengths] at hitems
  refine ⟨⟨hcomm, v, hv, hlengths, hitems⟩, ⟨first, second, whole, hfirst, hsecond, hwhole⟩,
    ⟨p, hp, (hmessage 1).trans (by decide +kernel)⟩, ⟨w, hw, hwlength.trans (by decide)⟩,
    ⟨empty, hempty, hemptyLength.trans (by decide)⟩⟩

end Value

/-! ## A list that cannot be copied -/

namespace Value

/-- A list of one item can be made as long as a list may be. -/
theorem exists_list_of_singleton (v : Value) {k : Nat} (hk : k ≤ maxSequenceLength) :
    ∃ items, operate (.arithmetic .mul) (.list [v]) (.int k) = .ok (.list items)
      ∧ items.length = k := by
  have hproduct := (operate_mul_eq_product (s := .list [v]) (n := .int k) rfl rfl (by rintro ⟨⟩)).1
  have hlength : (list [v]).length * k = k := Nat.one_mul k
  have hstack : (list [v]).exceedsStack k = false := by
    have hshort : ¬ maxStacked < 1 := by decide
    rw [exceedsStack, decide_eq_false_iff_not]
    exact fun h => hshort h.2
  rw [Int.toNat_natCast, product_of_le (hlength.symm ▸ hk) hstack] at hproduct
  exact ⟨repeated k [v], hproduct, (length_repeated k [v]).trans hlength⟩

/-- A list that the stack has no room for cannot be taken even once. -/
theorem operate_mul_one_eq_fault {items : List Value} (hle : items.length ≤ maxSequenceLength)
    (hstack : maxStacked < items.length) :
    operate (.arithmetic .mul) (.list items) (.int 1) = .error (.fault .stackExceeded) := by
  have hproduct :=
    (operate_mul_eq_product (s := .list items) (n := .int 1) rfl rfl (by rintro ⟨⟩)).1
  have hexceeds : (list items).exceedsStack 1 = true := decide_eq_true ⟨Nat.one_pos, hstack⟩
  have hle' : (list items).length * 1 ≤ maxSequenceLength := (Nat.mul_one _).symm ▸ hle
  rw [Int.toNat_one, product, if_pos hle', if_pos hexceeds] at hproduct
  exact hproduct

end Value

section Assignments

variable {builtins : Builtins} {fuel : Nat} {s : State} {span : Span} {target : Ident}
  {value : Tree} {rest : List Tree} {old : Option Value}

/-- An assignment binds its value for the statements behind it. -/
theorem Tree.execAll_assign {v : Value} (h : value.eval builtins s.environment = .ok v) :
    execAll builtins fuel (.assign span target value :: rest) s old
      = execAll builtins fuel rest (s.bind target.name v) (some v) := by
  rw [execAll, exec, State.eval, h]
  rfl

/-- An assignment whose value is a fault ends the run. -/
theorem Tree.execAll_assign_fault {f : Fault}
    (h : value.eval builtins s.environment = .error (.fault f)) :
    execAll builtins fuel (.assign span target value :: rest) s old
      = .error ⟨.error (.fault f), s⟩ := by
  rw [execAll, exec, State.eval, h]
  rfl

/-- A run that is aborted is aborted for the same cause. -/
theorem Program.run_of_abort {p : Program} {env : Environment} {a : Abort}
    (h : Tree.execAll builtins fuel p.statements (.start env) none = .error ⟨.error a, s⟩) :
    p.run fuel builtins env = .error a := by
  rw [Program.run, h]

/-- An operator whose operands have values faults as it does for these. -/
theorem Tree.eval_binary_fault {env : Environment} {op : Operator} {left right : Tree}
    {a b : Value} {f : Fault} (ha : left.eval builtins env = .ok a)
    (hb : right.eval builtins env = .ok b) (h : Value.operate op a b = .error (.fault f)) :
    (Tree.binary span op left right).eval builtins env = .error (.fault f) := by
  rw [Tree.eval, ha, hb]
  exact congrArg (Except.mapError _) h

end Assignments

/-- Makes a list of 200000 items, and takes it once. -/
def copiedList : Text := "a = [0]; b = a * 200000; c = b * 1"

/-- The first product is made. The second is as long, and is a fault. -/
theorem run_copiedList : ∃ p items, Script.parse copiedList = .ok p
    ∧ Value.operate (.arithmetic .mul) (.list [.int 0]) (.int 200000) = .ok (.list items)
    ∧ items.length * 1 ≤ maxSequenceLength
    ∧ Value.operate (.arithmetic .mul) (.list items) (.int 1) = .error (.fault .stackExceeded)
    ∧ ∀ fuel, p.run fuel .standard .empty = .error (.fault .stackExceeded) := by
  obtain ⟨whole, s₁, a, s₂, s₃, s₄, b, s₅, s₆, s₇, s₈, c, s₉, s₁₀, s₁₁, hparse⟩ :
      ∃ whole s₁ a s₂ s₃ s₄ b s₅ s₆ s₇ s₈ c s₉ s₁₀ s₁₁, Script.parse copiedList = .ok ⟨whole,
        [.assign s₁ ⟨a, "a"⟩ (.list s₂ [.number s₃ (.int 0)]),
          .assign s₄ ⟨b, "b"⟩ (.binary s₅ (.arithmetic .mul) (.reference s₆ "a")
            (.number s₇ (.int 200000))),
          .assign s₈ ⟨c, "c"⟩ (.binary s₉ (.arithmetic .mul) (.reference s₁₀ "b")
            (.number s₁₁ (.int 1)))]⟩ := ⟨_, _, _, _, _, _, _, _, _, _, _, _, _, _, _, rfl⟩
  -- the list is never written out: all that matters of it is its length
  obtain ⟨items, hitems, hlength⟩ : ∃ items,
      Value.operate (.arithmetic .mul) (.list [.int 0]) (.int 200000) = .ok (.list items)
        ∧ items.length = 200000 := Value.exists_list_of_singleton (.int 0) (by decide)
  have hle : items.length * 1 ≤ maxSequenceLength := by
    rw [hlength]
    decide
  have hfault := Value.operate_mul_one_eq_fault (Nat.mul_one _ ▸ hle) (by rw [hlength]; decide)
  let one := Environment.empty.insert "a" (.list [.int 0])
  let two := one.insert "b" (.list items)
  have hone : Tree.eval .standard one (.binary s₅ (.arithmetic .mul) (.reference s₆ "a")
      (.number s₇ (.int 200000))) = .ok (.list items) := Tree.eval_binary rfl rfl hitems s₅
  have htwo : Tree.eval .standard two (.binary s₉ (.arithmetic .mul) (.reference s₁₀ "b")
      (.number s₁₁ (.int 1))) = .error (.fault .stackExceeded) :=
    Tree.eval_binary_fault rfl rfl hfault
  have hstart : Tree.eval .standard .empty (.list s₂ [.number s₃ (.int 0)])
      = .ok (.list [.int 0]) := rfl
  refine ⟨_, items, hparse, hitems, hle, hfault, fun fuel => ?_⟩
  exact Program.run_of_abort ((Tree.execAll_assign hstart).trans
    ((Tree.execAll_assign hone).trans (Tree.execAll_assign_fault htwo)))

end Plume
