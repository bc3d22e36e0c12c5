import Plume.Proofs.Preservation

/-!
# The length of strings and lists

An operator builds no string or list beyond `maxSequenceLength`, whatever its operands are. A list
is otherwise only built where it is written out, one item for each expression. So a program whose
literals are no longer than that never comes to hold a longer string or list, at any depth of its
values and however often its loops join and repeat (`Program.lengths_of_run`).
-/

namespace Plume

/-! ## Operators -/

namespace Value

/-- The number of units of a string, or of items of a list. -/
def length : Value → Nat
  | .str t => t.length
  | .list items => items.length
  | .number _ | .bool _ => 0

/-- No string or list in the value is longer than an operator may build. -/
def Bounded (v : Value) : Prop := v.Everywhere fun w => w.length ≤ maxSequenceLength

variable {op : Operator} {a b v : Value}

/-- No operator gives a string or list that is too long. -/
theorem length_le_of_yields (h : Yields op a b v) : v.length ≤ maxSequenceLength := by
  cases h with
  | truth op a b holds => exact Nat.zero_le _
  | number hm hn hk => exact Nat.zero_le _
  | joinedText hlength | joinedList hlength =>
    rw [length, List.length_append]
    exact hlength
  | repeatedText hoperand hlength | repeatedList hoperand hlength =>
    rw [length, length_repeated]
    exact hlength

end Value

/-! ## Runs -/

namespace Tree

/-- The length of a literal string or list. -/
def literalLength : Tree → Nat
  | .string _ text => text.length
  | .list _ items => items.length
  | _ => 0

/-- Every operation keeps to the bound on lengths, by its own check or because it makes nothing
longer. -/
theorem closed_bounded {builtins : Builtins} {t : Tree}
    (hliterals : ∀ n, IsNode n t → n.literalLength ≤ maxSequenceLength)
    (hbuiltins : builtins.Keep Value.Bounded) : t.Closed builtins Value.Bounded where
  number _ _ _ := Value.everywhere_number (Nat.zero_le _)
  int _ := Value.everywhere_number (Nat.zero_le _)
  bool _ := Value.everywhere_bool (Nat.zero_le _)
  string _ _ hn := Value.everywhere_str (hliterals _ hn)
  list _ _ _ hn hlength hvalues :=
    Value.everywhere_list.mpr ⟨Nat.le_trans (Nat.le_of_eq hlength) (hliterals _ hn), hvalues⟩
  operate _ _ _ _ _ _ _ _ ha hb h := ha.of_yields hb h (Value.length_le_of_yields h)
  call := hbuiltins

end Tree

namespace Program

/-- If the literals of a program, the values of its environment and the values of its functions are
no longer than the limit, then so is every string and list that is bound, produced or returned at
any moment of its run. No operator gives a longer one for any operands. -/
theorem lengths_of_run {p : Program} {builtins : Builtins} {env : Environment}
    (hliterals : ∀ n, Tree.IsNode n p.toTree → n.literalLength ≤ maxSequenceLength)
    (henv : env.Holds Value.Bounded) (hbuiltins : builtins.Keep Value.Bounded) :
    p.Keeps builtins env Value.Bounded
      ∧ ∀ op a b v, Value.operate op a b = .ok v → v.length ≤ maxSequenceLength := by
  constructor
  · exact keeps_of_closed (Tree.closed_bounded hliterals hbuiltins) henv
  · intro op a b v h
    exact Value.length_le_of_yields (Value.operate_yields h)

/-- `for i in range(0, 3): s = same(s) + True * s`. -/
def doubling : Program :=
  let span : Span := ⟨⟨1, 1⟩, ⟨1, 2⟩⟩
  let s : Tree := .reference span "s"
  ⟨span, [.forRange span ⟨span, "i"⟩ (.number span (.int 0)) (.number span (.int 3))
    (.assign span ⟨span, "s"⟩ (.binary span (.arithmetic .add) (.call span ⟨span, "same"⟩ [s])
      (.binary span (.arithmetic .mul) (.boolean span true) s)))]⟩

/-- A function that gives its argument back. -/
def same : Builtins := ⟨[("same", ⟨1, fun arguments => arguments ⟨0, Nat.one_pos⟩⟩)]⟩

/-- A list of one string. -/
def singleton : Environment := .ofList [("s", .list [.str "ab"])]

/-- The function that returns its argument keeps whatever holds of it. -/
theorem same_keep (P : Value → Prop) : same.Keep P := by
  intro name f hf arguments harguments
  rw [Builtins.get?, same, List.lookup_cons] at hf
  split at hf
  · cases hf
    exact harguments _
  · cases hf

theorem lengths_of_run_doubling : ∃ r : RunResult,
    (∀ n, Tree.IsNode n doubling.toTree → n.literalLength ≤ maxSequenceLength)
      ∧ singleton.Holds Value.Bounded ∧ same.Keep Value.Bounded
      ∧ doubling.Returns same singleton r
      ∧ (r.environment.get? "s").map Value.length = some 8
      ∧ r.environment.Holds Value.Bounded := by
  have hnodes : ∀ n ∈ doubling.toTree.nodes, n.literalLength ≤ maxSequenceLength := by
    decide +kernel
  have hliterals := fun n (hn : Tree.IsNode n doubling.toTree) => hnodes n hn.mem_nodes
  have hlist : (Value.list [.str "ab"]).Bounded := by
    refine Value.everywhere_list.mpr ⟨by decide, fun v hv => ?_⟩
    obtain rfl := List.mem_singleton.mp hv
    exact Value.everywhere_str (by decide)
  have henv : singleton.Holds Value.Bounded := Environment.holds_empty.insert "s" hlist
  have hreturns : doubling.Returns same singleton _ := ⟨0, rfl⟩
  have hkeeps := (lengths_of_run hliterals henv (same_keep _)).1
  exact ⟨_, hliterals, henv, same_keep _, hreturns, rfl, (hkeeps.returned _ hreturns).1⟩

end Program

end Plume
