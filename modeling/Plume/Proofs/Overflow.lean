import Plume.Proofs.Joining
import Plume.Proofs.Provenance
import Plume.Proofs.Rounding

/-!
# Faults of products

A script reports what goes wrong by a diagnostic, with two exceptions, both of them products.

A count is made a float before a string is repeated. The length of the product is checked first, but
where the string is empty no count makes it too long, and the count may be one that no float can
hold. And each copy of a list puts all of its items on the stack, which has no room for more than
`maxStacked` of them. In both cases the run ends in a fault.

`operate_eq_fault_iff` says that these are the only faults of an operator, and for which operands
they arise: the empty string and an integer from `2 ^ 1024 - 2 ^ 970` on, or a list of too many
items and a positive integer. By `Script.returns_or_overflows` no other fault ends the run of a
script. `emptyTimesHuge` is a script that ends in the first of them.
-/

namespace Plume

namespace Value

variable {a b : Value}

/-- A product overflows if one operand is the empty string and the other an integer that is rounded
to infinity. -/
theorem overflows_iff : a.Overflows b ↔
    ∃ n, (a = .str [] ∧ b.integer? = some n ∨ b = .str [] ∧ a.integer? = some n)
      ∧ 2 ^ 1024 - 2 ^ 970 ≤ n.toNat := by
  have hlimit : maxSequenceLength < 2 ^ 1024 - 2 ^ 970 := by decide +kernel
  have hinfinite : ∀ n : Int, 0 < n →
      ((Binary64.ofInt n).isInfinite = true ↔ 2 ^ 1024 - 2 ^ 970 ≤ n.toNat) := by
    intro n hn
    have habs : n.natAbs = n.toNat := by omega
    rw [Binary64.isInfinite_ofInt_iff, habs]
  -- all that matters of the bound is that no sequence may be so long
  generalize 2 ^ 1024 - 2 ^ 970 = bound at *
  constructor
  · rintro ⟨t, n, hoperands, hlength, hpos, hn⟩
    rw [hinfinite n hpos] at hn
    have ht : t = [] := by
      by_contra hne
      have hle := Nat.le_mul_of_pos_left n.toNat (List.length_pos_iff.mpr hne)
      omega
    subst ht
    exact ⟨n, hoperands, hn⟩
  · rintro ⟨n, hoperands, hn⟩
    have hpos : 0 < n := by omega
    refine ⟨[], n, hoperands, ?_, hpos, (hinfinite n hpos).mpr hn⟩
    rw [List.length_nil, Nat.zero_mul]
    exact Nat.zero_le _

/-- A string that is short enough runs into its count. -/
theorem times?_of_overflows {t : Text} {n : Int} (hlength : t.length * n.toNat ≤ maxSequenceLength)
    (hn : 0 < n ∧ (Binary64.ofInt n).isInfinite = true) :
    (Value.str t).times? n = some (.error (.fault .countTooLarge)) := by
  rw [times?, checkLength, if_pos hlength, if_pos hn]
  rfl

/-- A list that is short enough for a product runs into the stack. -/
theorem times?_of_overstacks {items : List Value} {n : Int}
    (hlength : items.length * n.toNat ≤ maxSequenceLength)
    (hitems : 0 < n ∧ maxStacked < items.length) :
    (Value.list items).times? n = some (.error (.fault .stackExceeded)) := by
  rw [times?, checkLength, if_pos hlength, if_pos hitems]
  rfl

/-- An operator faults only if it is a product with one of the two faults. -/
theorem operate_eq_fault_iff {op : Operator} {f : Fault} :
    operate op a b = .error (.fault f) ↔ op = .arithmetic .mul ∧ a.Faults b f := by
  constructor
  · exact operate_explained op a b (.fault f)
  · rintro ⟨rfl, ⟨t, n, hoperands, hlength, hn⟩ | ⟨items, n, hoperands, hlength, hitems⟩⟩
    · exact operate_mul_of_times? rfl rfl hoperands (times?_of_overflows hlength hn)
    · exact operate_mul_of_times? rfl rfl hoperands (times?_of_overstacks hlength hitems)

end Value

namespace Tree

variable {builtins : Builtins} {env : Environment} {t : Tree} {s : State} {f : Fault}

/-- In an environment, a product in the tree is that of the empty string and an integer that no
float can hold. -/
def Overflows (builtins : Builtins) (env : Environment) (t : Tree) : Prop :=
  ∃ span left right, IsNode (.binary span (.arithmetic .mul) left right) t
    ∧ ∃ a b n, left.eval builtins env = .ok a ∧ right.eval builtins env = .ok b
      ∧ (a = .str [] ∧ b.integer? = some n ∨ b = .str [] ∧ a.integer? = some n)
      ∧ 2 ^ 1024 - 2 ^ 970 ≤ n.toNat

/-- In an environment, a product in the tree is that of a positive integer and a list of more items
than the stack has room for. -/
def Overstacks (builtins : Builtins) (env : Environment) (t : Tree) : Prop :=
  ∃ span left right, IsNode (.binary span (.arithmetic .mul) left right) t
    ∧ ∃ a b items n, left.eval builtins env = .ok a ∧ right.eval builtins env = .ok b
      ∧ (a = .list items ∧ b.integer? = some n ∨ b = .list items ∧ a.integer? = some n)
      ∧ items.length * n.toNat ≤ maxSequenceLength ∧ 0 < n ∧ maxStacked < items.length

/-- Why a product in the tree faults in an environment. -/
inductive Faults (builtins : Builtins) (env : Environment) (t : Tree) : Fault → Prop
  | count : t.Overflows builtins env → Faults builtins env t .countTooLarge
  | stack : t.Overstacks builtins env → Faults builtins env t .stackExceeded

/-- A fault other than that of a misplaced statement is the fault of a product in the tree. -/
theorem StopsWithin.faults (h : StopsWithin builtins env t (.fault f))
    (hf : f ≠ .misplacedStatement) : t.Faults builtins env f := by
  obtain ⟨n, hn, hstop⟩ := h
  generalize hcause : Stop.fault f = stop at hstop
  cases hstop with
  -- only an operator can be at fault, and then its operands say which fault it is
  | @binary span op left right a b stop ha hb hoperate =>
    cases stop with
    | problem p => cases hcause
    | fault f =>
      cases hcause
      obtain ⟨rfl, hfaults⟩ := Value.operate_eq_fault_iff.mp hoperate
      cases hfaults with
      | count hoverflows =>
        obtain ⟨count, hoperands, hcount⟩ := Value.overflows_iff.mp hoverflows
        exact .count ⟨span, left, right, hn, a, b, count, ha, hb, hoperands, hcount⟩
      | stack hoverstacks =>
        obtain ⟨items, count, hoverstacks⟩ := hoverstacks
        exact .stack ⟨span, left, right, hn, a, b, items, count, ha, hb, hoverstacks⟩
  | statement =>
    cases hcause
    exact absurd rfl hf
  | _ => cases hcause

/-- The same for a run that has halted, in the environment that it has reached. -/
theorem HaltsWithin.faults (h : HaltsWithin builtins t ⟨.error (.fault f), s⟩)
    (hf : f ≠ .misplacedStatement) : t.Faults builtins s.environment f := by
  generalize hhalt : (⟨.error (.fault f), s⟩ : Halt) = halt at h
  cases h with
  | @expression s stop hstop =>
    cases stop with
    | problem d => cases hhalt
    | fault f =>
      cases hhalt
      exact hstop.faults hf
  | _ => cases hhalt

end Tree

/-- In a parsed script every statement stands where statements may stand. -/
theorem Script.arePlaced_of_parse {source : Text} {p : Program}
    (h : Script.parse source = .ok p) : Tree.arePlaced p.statements = true := by
  have htokens := (Script.parse_eq_ok_iff.mp h).2
  have hcanonical : p.IsCanonical := Parser.read?_sound (Parser.parseFrom_eq_ok.mp htokens)
  exact Tree.arePlaced_of_forall fun s hs => (hcanonical.statements s hs).isPlaced

/-- A program that ends in a fault has halted in a state with that fault. -/
theorem Program.exists_halt_of_fault {p : Program} {fuel : Nat} {builtins : Builtins}
    {env : Environment} {f : Fault} (h : p.run fuel builtins env = .error (.fault f)) :
    ∃ s, Tree.execAll builtins fuel p.statements (.start env) none
      = .error ⟨.error (.fault f), s⟩ := by
  unfold Program.run at h
  split at h
  · cases h
  · cases h
  next a s hexec =>
    cases h
    exact ⟨s, hexec⟩

/-- The run of a script returns, or its loops use up the fuel, or it ends in a state in which a
product of the script overflows, or the stack has no room for the list of one. -/
theorem Script.returns_or_overflows (fuel : Nat) (builtins : Builtins) (env : Environment)
    (source : Text) :
    (∃ r, Script.run fuel builtins env source = .ok r)
      ∨ Script.run fuel builtins env source = .error .outOfFuel
      ∨ (Script.run fuel builtins env source = .error (.fault .countTooLarge)
        ∧ ∃ p s, Script.parse source = .ok p
          ∧ Tree.execAll builtins fuel p.statements (.start env) none
            = .error ⟨.error (.fault .countTooLarge), s⟩
          ∧ p.toTree.Overflows builtins s.environment)
      ∨ Script.run fuel builtins env source = .error (.fault .stackExceeded)
        ∧ ∃ p s, Script.parse source = .ok p
          ∧ Tree.execAll builtins fuel p.statements (.start env) none
            = .error ⟨.error (.fault .stackExceeded), s⟩
          ∧ p.toTree.Overstacks builtins s.environment := by
  cases hparse : Script.parse source with
  | error d =>
    left
    exact ⟨_, by rw [Script.run, hparse]⟩
  | ok p =>
    have hrun : Script.run fuel builtins env source = p.run fuel builtins env := by
      rw [Script.run, hparse]
    rw [hrun]
    cases hp : p.run fuel builtins env with
    | ok r => exact .inl ⟨r, rfl⟩
    | error abort =>
      cases abort with
      | outOfFuel => exact .inr (.inl rfl)
      | fault f =>
        -- a parsed script has no misplaced statement, so the fault is that of a repetition
        have hf : f ≠ .misplacedStatement := by
          rintro rfl
          exact Program.run_ne_misplacedStatement (Script.arePlaced_of_parse hparse) hp
        obtain ⟨s, hexec⟩ := Program.exists_halt_of_fault hp
        cases (Program.haltsWithin hexec).faults hf with
        | count hoverflows => exact .inr (.inr (.inl ⟨rfl, p, s, rfl, hexec, hoverflows⟩))
        | stack hoverstacks => exact .inr (.inr (.inr ⟨rfl, p, s, rfl, hexec, hoverstacks⟩))

/-- `""*1` and 309 zeros behind it. -/
def emptyTimesHuge : Text := [0x22, 0x22, 0x2A, 0x31] ++ List.replicate 309 0x30

set_option maxRecDepth 2000 in
/-- What the script is parsed as: a product of the empty string and a large integer. -/
theorem parse_emptyTimesHuge : ∃ whole span left right, ∃ n : Int,
    Script.parse emptyTimesHuge = .ok ⟨whole, [.binary span (.arithmetic .mul)
        (.string left []) (.number right (.int n))]⟩
      ∧ 2 ^ 1024 - 2 ^ 970 ≤ n.toNat :=
  ⟨_, _, _, _, _, rfl, by decide +kernel⟩

/-- A script whose run ends without a result. -/
theorem run_emptyTimesHuge : ∃ p, Script.parse emptyTimesHuge = .ok p
    ∧ ∀ fuel env, p.run fuel .standard env = .error (.fault .countTooLarge) := by
  obtain ⟨whole, span, left, right, n, hparse, hn⟩ := parse_emptyTimesHuge
  refine ⟨_, hparse, fun fuel env => ?_⟩
  have hoperate : Value.operate (.arithmetic .mul) (.str []) (.number (.int n))
      = .error (.fault .countTooLarge) :=
    Value.operate_eq_fault_iff.mpr
      ⟨rfl, .count (Value.overflows_iff.mpr ⟨n, .inl ⟨rfl, rfl⟩, hn⟩)⟩
  have heval : Tree.eval .standard env (.binary span (.arithmetic .mul) (.string left [])
      (.number right (.int n))) = .error (.fault .countTooLarge) := by
    simp only [Tree.eval, bind, Except.bind, hoperate]
    rfl
  simp only [Program.run, Tree.execAll, Tree.exec, State.eval, State.start, heval]
  rfl

end Plume
