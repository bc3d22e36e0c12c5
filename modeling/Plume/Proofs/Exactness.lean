import Plume.Proofs.Preservation

/-!
# Programs without floats

A float enters a run as a literal, as a quotient, from the environment or from a function. Where
none of these gives one, no value of the run holds a float, at any depth (`Program.exact_of_run`).
All sums, differences and products of numbers are then those of integers, which are exact: truth
values count as 0 and 1, the result is an integer, and there always is one.
-/

namespace Plume

namespace Value

/-- There is no float in the value. -/
def FloatFree (v : Value) : Prop := v.Everywhere fun w => w.typeName ≠ .float

variable {a b v : Value}

/-- A value without floats counts as a number only if it counts as an integer. -/
theorem exists_int_of_number? (ha : a.FloatFree) {n : Number} (hn : a.number? = some n) :
    ∃ i, n = .int i := by
  match a, n, hn with
  | .number (.int i), _, rfl => exact ⟨i, rfl⟩
  | .number (.float x), _, rfl => exact absurd rfl (ha _ .self)
  | .bool b, _, rfl => exact ⟨_, rfl⟩

/-- Numbers without floats give no float but by a division. -/
theorem exists_int_of_calculate? {op : Arithmetic} (hop : op ≠ .div) {i j : Int} {k : Number}
    (h : Number.calculate? op (.int i) (.int j) = some k) : ∃ l, k = .int l := by
  cases op with
  | div => exact absurd rfl hop
  | add | sub | mul =>
    cases h
    exact ⟨_, rfl⟩

/-- No operator but division makes a float of operands without one. -/
theorem typeName_ne_of_yields {op : Operator} (hop : op ≠ .arithmetic .div) (ha : a.FloatFree)
    (hb : b.FloatFree) (h : Yields op a b v) : v.typeName ≠ .float := by
  cases h with
  | @number op a b m n k hm hn hk =>
    obtain ⟨i, rfl⟩ := exists_int_of_number? ha hm
    obtain ⟨j, rfl⟩ := exists_int_of_number? hb hn
    have hne : op ≠ .div := fun h => hop (h ▸ rfl)
    obtain ⟨l, rfl⟩ := exists_int_of_calculate? hne hk
    rintro ⟨⟩
  | truth _ _ _ _ | joinedText _ | joinedList _ | repeatedText _ _ | repeatedList _ _ => rintro ⟨⟩

theorem number?_of_integer? {m : Int} (h : a.integer? = some m) : a.number? = some (.int m) := by
  match a, h with
  | .number (.int i), rfl => rfl
  | .bool b, rfl => rfl

/-- The sum, difference and product of values that count as integers are those of the integers. -/
theorem operate_of_integer? {m n : Int} (ha : a.integer? = some m) (hb : b.integer? = some n) :
    operate (.arithmetic .add) a b = .ok (.int (m + n))
      ∧ operate (.arithmetic .sub) a b = .ok (.int (m - n))
      ∧ operate (.arithmetic .mul) a b = .ok (.int (m * n)) := by
  simp only [operate, calculate, number?_of_integer? ha, number?_of_integer? hb]
  exact ⟨rfl, rfl, rfl⟩

end Value

namespace Builtins

/-- The functions of the language make no floats. -/
theorem standard_keep_floatFree : standard.Keep Value.FloatFree := by
  intro name f hf arguments _
  rw [get?, standard, List.lookup_cons] at hf
  split at hf
  · cases hf
    exact Value.everywhere_str (by rintro ⟨⟩)
  · cases hf

end Builtins

namespace Tree

variable {builtins : Builtins}

/-- Whether a node is a float or a division. -/
def isInexact : Tree → Bool
  | .number _ (.float _) => true
  | .binary _ (.arithmetic .div) _ _ => true
  | _ => false

/-- Without division and inexact literals no operation makes a float. -/
theorem closed_floatFree {t : Tree} (hexact : ∀ n, IsNode n t → n.isInexact = false)
    (hbuiltins : builtins.Keep Value.FloatFree) : t.Closed builtins Value.FloatFree where
  number span n hn := by
    cases n with
    | int i => exact Value.everywhere_number (by rintro ⟨⟩)
    | float x => cases hexact _ hn
  int _ := Value.everywhere_number (by rintro ⟨⟩)
  bool _ := Value.everywhere_bool (by rintro ⟨⟩)
  string _ _ _ := Value.everywhere_str (by rintro ⟨⟩)
  list _ _ _ _ _ hvalues := Value.everywhere_list.mpr ⟨by rintro ⟨⟩, hvalues⟩
  operate span op left right a b v hn ha hb h := by
    have hop : op ≠ .arithmetic .div := by
      rintro rfl
      cases hexact _ hn
    exact ha.of_yields hb h (Value.typeName_ne_of_yields hop ha hb h)
  call := hbuiltins

/-- The value of an operation, from those of its operands. -/
theorem eval_binary {env : Environment} {left right : Tree} {a b : Value}
    (ha : left.eval builtins env = .ok a) (hb : right.eval builtins env = .ok b) {op : Operator}
    {v : Value} (hv : Value.operate op a b = .ok v) (span : Span) :
    (binary span op left right).eval builtins env = .ok v := by
  rw [eval, ha, hb]
  exact mapError_eq_ok.mpr hv

end Tree

namespace Program

/-- If no literal of a program is a float, nothing in it is divided, and neither its environment nor
its functions give a float, then there is no float in any value that is bound, produced or returned
at any moment of its run. Wherever the operands of a sum, difference or product are integers or
truth values, its value is the integer that it is for the integers that they count as. -/
theorem exact_of_run {p : Program} {builtins : Builtins} {env : Environment}
    (hexact : ∀ n, Tree.IsNode n p.toTree → n.isInexact = false)
    (henv : env.Holds Value.FloatFree) (hbuiltins : builtins.Keep Value.FloatFree) :
    p.Keeps builtins env Value.FloatFree
      ∧ ∀ (e : Environment) (left right : Tree) (a b : Value) (m n : Int),
        left.eval builtins e = .ok a → right.eval builtins e = .ok b →
        a.integer? = some m → b.integer? = some n → ∀ span,
        (Tree.binary span (.arithmetic .add) left right).eval builtins e = .ok (.int (m + n))
          ∧ (Tree.binary span (.arithmetic .sub) left right).eval builtins e = .ok (.int (m - n))
          ∧ (Tree.binary span (.arithmetic .mul) left right).eval builtins e
            = .ok (.int (m * n)) := by
  constructor
  · exact keeps_of_closed (Tree.closed_floatFree hexact hbuiltins) henv
  · intro e left right a b m n ha hb hm hn span
    obtain ⟨hadd, hsub, hmul⟩ := Value.operate_of_integer? hm hn
    exact ⟨Tree.eval_binary ha hb hadd span, Tree.eval_binary ha hb hsub span,
      Tree.eval_binary ha hb hmul span⟩

/-- `for i in range(0, 2): x = (x + True) * 100000000000000000000 - i` and then `[x, str(i)]`. -/
def hugeProduct : Program :=
  let span : Span := ⟨⟨1, 1⟩, ⟨1, 2⟩⟩
  let x : Tree := .reference span "x"
  let i : Tree := .reference span "i"
  let number (n : Int) : Tree := .number span (.int n)
  let next : Tree := .binary span (.arithmetic .sub)
    (.binary span (.arithmetic .mul) (.binary span (.arithmetic .add) x (.boolean span true))
      (number 100000000000000000000)) i
  ⟨span, [.forRange span ⟨span, "i"⟩ (number 0) (number 2) (.assign span ⟨span, "x"⟩ next),
    .list span [x, .call span ⟨span, "str"⟩ [i]]]⟩

theorem exact_of_run_hugeProduct : ∃ r : RunResult,
    (∀ n, Tree.IsNode n hugeProduct.toTree → n.isInexact = false)
      ∧ (Environment.ofList [("x", .bool true)]).Holds Value.FloatFree
      ∧ Builtins.standard.Keep Value.FloatFree
      ∧ hugeProduct.Returns .standard (.ofList [("x", .bool true)]) r
      ∧ r.value.map Value.text = some "[20000000000000000000099999999999999999999, '1']"
      ∧ (∀ v, r.value = some v → v.FloatFree) := by
  have hnodes : ∀ n ∈ hugeProduct.toTree.nodes, n.isInexact = false := by decide +kernel
  have hexact := fun n (hn : Tree.IsNode n hugeProduct.toTree) => hnodes n hn.mem_nodes
  have htrue : (Value.bool true).FloatFree := Value.everywhere_bool (by rintro ⟨⟩)
  have henv : (Environment.ofList [("x", .bool true)]).Holds Value.FloatFree :=
    Environment.holds_empty.insert "x" htrue
  have hreturns : hugeProduct.Returns .standard (.ofList [("x", .bool true)]) _ := ⟨0, rfl⟩
  have hkeeps := (exact_of_run hexact henv Builtins.standard_keep_floatFree).1
  exact ⟨_, hexact, henv, Builtins.standard_keep_floatFree, hreturns, by decide +kernel,
    (hkeeps.returned _ hreturns).2⟩

end Program

end Plume
