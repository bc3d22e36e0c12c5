import Mathlib.Data.Int.Range
import Plume.Proofs.Sequencing

/-!
# Loops over ranges, unrolled

A loop over a range runs as the statements `x = a`, body, `x = a + 1`, body and so on up to the last
integer below the end of the range (`Tree.exec_forRange_unrolled`). The two ends are evaluated once,
before the first round, so that it does not matter what the body does to the iterator or to the
names that the ends were calculated from.

## Shape of the proof

The rounds of a loop are a fold over the integers of its range (`forEach_eq_foldlM`), and so are the
unrolled statements, of which two make one step of the fold (`Tree.execAll_iteration`,
`Tree.execAll_flatMap_iteration`).
-/

namespace Plume

/-- The rounds of a loop are a fold over the integers of its range. -/
theorem forEach_eq_foldlM (body : Int → State → Except Halt State) (a z : Int) (s : State) :
    forEach body (z - a).toNat a s = (Int.range a z).foldlM (fun s i => body i s) s := by
  rw [Int.range]
  generalize (z - a).toNat = count
  induction count generalizing a s with
  | zero => rfl
  | succ count ih =>
    have hrest : ((List.range count).map Nat.succ).map (fun k : Nat => a + k)
        = (List.range count).map fun k : Nat => a + 1 + k := by
      rw [List.map_map]
      apply List.map_congr_left
      intro k _
      show a + (k + 1 : Nat) = a + 1 + k
      omega
    rw [List.range_succ_eq_map, List.map_cons, hrest, List.foldlM_cons, forEach]
    simp only [ih, Int.natCast_zero, Int.add_zero]

/-- A bound is the integer that its value counts as. -/
theorem State.bound_of_eval {builtins : Builtins} {s : State} {e : Tree} {v : Value} {n : Int}
    (he : e.eval builtins s.environment = .ok v) (hv : v.integer? = some n) :
    s.bound builtins e = .ok n := by
  rw [State.bound, bind_eq_ok]
  refine ⟨v, mapError_eq_ok.mpr he, ?_⟩
  rw [hv]

namespace Tree

variable {builtins : Builtins} {fuel : Nat} {s : State}

/-- One round of a loop as statements: the iterator is assigned an integer, and the body follows. -/
def iteration (x : Ident) (body : Tree) (i : Int) : List Tree :=
  [.assign x.span x (.number x.span (.int i)), body]

/-- All rounds of a loop over the integers from `a` on and below `z`, as statements. -/
def unrolled (x : Ident) (body : Tree) (a z : Int) : List Tree :=
  (Int.range a z).flatMap (iteration x body)

/-- One round runs the body where the iterator has been bound. -/
theorem execAll_iteration (x : Ident) (body : Tree) (i : Int) (s : State) (value : Option Value) :
    execAll builtins fuel (iteration x body i) s value
      = exec builtins fuel body (s.bind x.name (.int i)) := by
  have hassign : exec builtins fuel (.assign x.span x (.number x.span (.int i))) s
      = .ok ⟨s.bind x.name (.int i), some (.int i)⟩ := by
    rw [exec]
    rfl
  rw [iteration, execAll, hassign]
  show execAll builtins fuel [body] (s.bind x.name (.int i)) (some (.int i)) = _
  rw [execAll]
  simp only [execAll]
  exact bind_pure _

/-- Any number of rounds, one after another, are a fold over their integers. -/
theorem execAll_flatMap_iteration (x : Ident) (body : Tree) (integers : List Int) (s : State)
    (value : Option Value) :
    (execAll builtins fuel (integers.flatMap (iteration x body)) s value).map Progress.state
      = integers.foldlM (fun s i => do
          let reached ← exec builtins fuel body (s.bind x.name (.int i))
          return reached.state) s := by
  induction integers generalizing s value with
  | nil =>
    rw [List.flatMap_nil, execAll]
    rfl
  | cons i rest ih =>
    rw [List.flatMap_cons, execAll_append, execAll_iteration, List.foldlM_cons]
    -- either the body fails and neither side goes on, or both go on from where it has got to
    cases exec builtins fuel body (s.bind x.name (.int i)) with
    | error h => rfl
    | ok reached => exact ih reached.state reached.value

/-- A loop over a range whose ends have integer values fails or gets as far as its rounds do when
they are written out as statements: it prints and binds the same, and halts for the same reason. A
range without integers leaves everything as it is, the iterator included. -/
theorem exec_forRange_unrolled {first stop : Tree} {v w : Value} {a z : Int}
    (hfirst : first.eval builtins s.environment = .ok v) (ha : v.integer? = some a)
    (hstop : stop.eval builtins s.environment = .ok w) (hz : w.integer? = some z)
    (fuel : Nat) (span : Span) (x : Ident) (body : Tree) :
    (exec builtins fuel (.forRange span x first stop body) s).map Progress.state
        = (execAll builtins fuel (unrolled x body a z) s none).map Progress.state
      ∧ (z ≤ a → exec builtins fuel (.forRange span x first stop body) s = .ok ⟨s, none⟩) := by
  -- the rounds of the loop are the statements of the unrolled sequence, one after the other
  have hloop : exec builtins fuel (.forRange span x first stop body) s
      = ((execAll builtins fuel (unrolled x body a z) s none).map Progress.state).map
          fun s => ⟨s, none⟩ := by
    rw [exec, State.bound_of_eval hfirst ha, State.bound_of_eval hstop hz, unrolled,
      execAll_flatMap_iteration, ← forEach_eq_foldlM]
    rfl
  constructor
  · rw [hloop]
    cases execAll builtins fuel (unrolled x body a z) s none <;> rfl
  · intro hle
    have hempty : unrolled x body a z = [] := by
      rw [unrolled, Int.range, Int.toNat_of_nonpos (by omega)]
      rfl
    rw [hloop, hempty, execAll]
    rfl

/-- `n = 0; print(i); if i: missing; i = 7`, with the places left out. -/
def rebinding : Tree :=
  let here : Span := ⟨⟨1, 1⟩, ⟨1, 1⟩⟩
  .block here [.assign here ⟨here, "n"⟩ (.number here (.int 0)),
    .print here (.reference here "i"),
    .ifThen here (.reference here "i") (.reference here "missing"),
    .assign here ⟨here, "i"⟩ (.number here (.int 7))]

theorem exec_forRange_unrolled_rebinding :
    let here : Span := ⟨⟨1, 1⟩, ⟨1, 1⟩⟩
    let s : State := .start (.ofList [("n", .int 3)])
    let first : Tree := .boolean here false
    let stop : Tree := .reference here "n"
    first.eval .standard s.environment = .ok (.bool false)
      ∧ stop.eval .standard s.environment = .ok (.int 3)
      ∧ ∃ h, (exec .standard 0 (.forRange here ⟨here, "i"⟩ first stop rebinding) s).map
            Progress.state = .error h
        ∧ (execAll .standard 0 (unrolled ⟨here, "i"⟩ rebinding 0 3) s none).map Progress.state
          = .error h
        ∧ h.cause = .ok ⟨.undefinedName "missing", here.start⟩
        ∧ h.state.output = "0\n1\n"
        ∧ h.state.environment.get? "i" = some (.int 1) := by
  intro here s first stop
  have hfirst : first.eval .standard s.environment = .ok (.bool false) := rfl
  have hstop : stop.eval .standard s.environment = .ok (.int 3) := rfl
  have hsame := (exec_forRange_unrolled hfirst rfl hstop rfl 0 here ⟨here, "i"⟩ rebinding).1
  exact ⟨hfirst, hstop, _, rfl, hsame.symm, rfl, by decide +kernel, rfl⟩

end Tree

end Plume
