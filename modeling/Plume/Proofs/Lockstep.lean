import Plume.Proofs.Nodes
import Plume.Run.Statement

/-!
# Runs side by side

The same statements run twice: from two states that are related, and the second time with no less
fuel than the first and perhaps with other functions. If related states give every expression in the
statements the same value, and stay related when a name is bound or a value printed, then the two
runs end the same way in related states (`exec_agree`), unless the first runs out of fuel.

A loop is where the runs could part. The run lemmas `forEach_agree` and `repeatWhile_agree` say that
they do not, by induction on the rounds.
-/

namespace Plume

/-! ## Results side by side -/

/-- Results of two runs: values related by `Q`, or halts for one cause in states related by `R`. The
first run may be out of fuel whatever the second does. -/
inductive Agree (R : State → State → Prop) {α : Type} (Q : α → α → Prop) :
    Except Halt α → Except Halt α → Prop
  | ok {a a' : α} : Q a a' → Agree R Q (.ok a) (.ok a')
  | halt (cause : Except Abort Diagnostic) {s s' : State} :
      R s s' → Agree R Q (.error ⟨cause, s⟩) (.error ⟨cause, s'⟩)
  | outOfFuel (s : State) (r : Except Halt α) : Agree R Q (.error ⟨.error .outOfFuel, s⟩) r

/-- Progress to related states, with the same value. -/
def Progress.Agree (R : State → State → Prop) (p p' : Progress) : Prop :=
  R p.state p'.state ∧ p.value = p'.value

/-- States that no expression tells apart, and that binding and printing keep related. -/
structure Lockstep (builtins : Builtins) (R : State → State → Prop) : Prop where
  eval : ∀ {s s'}, R s s' →
    ∀ e : Tree, e.eval builtins s.environment = e.eval builtins s'.environment
  bind : ∀ {s s'}, R s s' → ∀ name value, R (s.bind name value) (s'.bind name value)
  print : ∀ {s s'}, R s s' → ∀ value, R (s.print value) (s'.print value)

/-- The same for the trees of a class that holds their parts as well, with functions of its own for
each of the two states. -/
structure LockstepOn (shared : Tree → Prop) (builtins builtins' : Builtins)
    (R : State → State → Prop) : Prop where
  part : ∀ {t c}, shared t → c ∈ t.parts → shared c
  eval : ∀ {s s'}, R s s' →
    ∀ e, shared e → e.eval builtins s.environment = e.eval builtins' s'.environment
  bind : ∀ {s s'}, R s s' → ∀ name value, R (s.bind name value) (s'.bind name value)
  print : ∀ {s s'}, R s s' → ∀ value, R (s.print value) (s'.print value)

variable {R : State → State → Prop} {shared : Tree → Prop} {builtins builtins' : Builtins}
  {s s' : State} {fuel fuel' : Nat} {e condition : Tree}

/-- States in lockstep are in lockstep on the class of all trees. -/
theorem Lockstep.on (h : Lockstep builtins R) :
    LockstepOn (fun _ => True) builtins builtins R where
  part _ _ := trivial
  eval hs e _ := h.eval hs e
  bind := h.bind
  print := h.print

/-- Computations that agree step by step agree. -/
theorem Agree.bind {α β : Type} {P : α → α → Prop} {Q : β → β → Prop} {x x' : Except Halt α}
    {f f' : α → Except Halt β} (hx : Agree R P x x')
    (hf : ∀ a a', P a a' → Agree R Q (f a) (f' a')) : Agree R Q (x >>= f) (x' >>= f') := by
  cases hx with
  | ok ha => exact hf _ _ ha
  | halt cause hs => exact .halt cause hs
  | outOfFuel s r => exact .outOfFuel s _

namespace LockstepOn

/-- Lockstep looks the same from either side. -/
theorem flip (h : LockstepOn shared builtins builtins' R) :
    LockstepOn shared builtins' builtins (flip R) where
  part := h.part
  eval hs e he := (h.eval hs e he).symm
  bind hs := h.bind hs
  print hs := h.print hs

/-- Related states give one and the same value to an expression. -/
theorem evaluates (h : LockstepOn shared builtins builtins' R) (hs : R s s') (he : shared e) :
    Agree R Eq (s.eval builtins e) (s'.eval builtins' e) := by
  rw [State.eval, State.eval, ← h.eval hs e he]
  cases e.eval builtins s.environment with
  | ok v => exact .ok rfl
  | error stop => cases stop <;> exact .halt _ hs

/-- Related states agree on every condition. -/
theorem tests (h : LockstepOn shared builtins builtins' R) (hs : R s s') (he : shared condition) :
    Agree R Eq (s.test builtins condition) (s'.test builtins' condition) := by
  refine (h.evaluates hs he).bind (f := fun v => .ok v.isTruthy) ?_
  rintro v _ rfl
  exact .ok rfl

/-- Related states agree on the bounds of a range. -/
theorem bounds (h : LockstepOn shared builtins builtins' R) (hs : R s s') (he : shared e) :
    Agree R Eq (s.bound builtins e) (s'.bound builtins' e) := by
  refine (h.evaluates hs he).bind ?_
  rintro v _ rfl
  cases v.integer? with
  | some n => exact .ok rfl
  | none => exact .halt _ hs

end LockstepOn

/-! ## Loops -/

/-- Loops over the same integers agree if their bodies do. -/
theorem forEach_agree {body body' : Int → State → Except Halt State}
    (hbody : ∀ i s s', R s s' → Agree R R (body i s) (body' i s')) (count : Nat) (i : Int)
    (hs : R s s') : Agree R R (forEach body count i s) (forEach body' count i s') := by
  induction count generalizing i s s' with
  | zero => exact .ok hs
  | succ count ih => exact (hbody i s s' hs).bind fun _ _ h => ih (i + 1) h

/-- Loops agree if their tests and bodies do and the second has no less fuel. -/
theorem repeatWhile_agree {test test' : State → Except Halt Bool}
    {body body' : State → Except Halt State}
    (htest : ∀ s s', R s s' → Agree R Eq (test s) (test' s'))
    (hbody : ∀ s s', R s s' → Agree R R (body s) (body' s')) (hfuel : fuel ≤ fuel')
    (hs : R s s') :
    Agree R R (repeatWhile test body fuel s) (repeatWhile test' body' fuel' s') := by
  induction fuel generalizing fuel' s s' with
  | zero => exact .outOfFuel s _
  | succ fuel ih =>
    obtain ⟨fuel', rfl⟩ := Nat.exists_eq_add_of_le' (Nat.one_le_of_lt hfuel)
    refine (htest s s' hs).bind ?_
    rintro holds _ rfl
    cases holds with
    | false => exact .ok hs
    | true => exact (hbody s s' hs).bind fun _ _ h => ih (Nat.le_of_succ_le_succ hfuel) h

/-! ## Statements -/

namespace Tree

/-- The state that an agreed progress has reached. -/
theorem agree_reached {x x' : Except Halt Progress} (hx : Agree R (Progress.Agree R) x x') :
    Agree R R (do let reached ← x; return reached.state)
      (do let reached ← x'; return reached.state) :=
  hx.bind fun _ _ h => .ok h.1

/-- The same without the value. -/
theorem agree_done {x x' : Except Halt Progress} (hx : Agree R (Progress.Agree R) x x') :
    Agree R (Progress.Agree R) (do let reached ← x; return ⟨reached.state, none⟩)
      (do let reached ← x'; return ⟨reached.state, none⟩) :=
  hx.bind fun _ _ h => .ok ⟨h.1, rfl⟩

mutual

/-- A statement that runs twice in lockstep comes to the same end. -/
theorem exec_agree (h : LockstepOn shared builtins builtins' R) (hfuel : fuel ≤ fuel') :
    ∀ (t : Tree) (s s' : State), shared t → R s s' →
      Agree R (Progress.Agree R) (exec builtins fuel t s) (exec builtins' fuel' t s')
  | .block span statements, s, s', ht, hs => by
    rw [exec, exec]
    exact agree_done (execAll_agree h hfuel statements s s' none (fun _ => h.part ht) hs)
  | .assign span target value, s, s', ht, hs => by
    rw [exec, exec]
    refine (h.evaluates hs (h.part ht (by simp [parts]))).bind ?_
    rintro v _ rfl
    exact .ok ⟨h.bind hs target.name v, rfl⟩
  -- the two runs agree on the condition, so they take the same branch
  | .ifThen span condition body, s, s', ht, hs => by
    rw [exec, exec]
    refine (h.tests hs (h.part ht (by simp [parts]))).bind ?_
    rintro holds _ rfl
    cases holds with
    | true => exact agree_done (exec_agree h hfuel body s s' (h.part ht (by simp [parts])) hs)
    | false => exact .ok ⟨hs, rfl⟩
  | .ifElse span condition body otherwise, s, s', ht, hs => by
    rw [exec, exec]
    refine (h.tests hs (h.part ht (by simp [parts]))).bind ?_
    rintro holds _ rfl
    cases holds with
    | true => exact agree_done (exec_agree h hfuel body s s' (h.part ht (by simp [parts])) hs)
    | false =>
      exact agree_done (exec_agree h hfuel otherwise s s' (h.part ht (by simp [parts])) hs)
  | .forRange span iterator first stop body, s, s', ht, hs => by
    rw [exec, exec]
    refine (h.bounds hs (h.part ht (by simp [parts]))).bind ?_
    rintro a _ rfl
    refine (h.bounds hs (h.part ht (by simp [parts]))).bind ?_
    rintro z _ rfl
    -- they agree on the range as well, and go through it side by side
    have hbody : shared body := h.part ht (by simp [parts])
    refine (forEach_agree (fun i s s' hs => ?_) _ a hs).bind fun _ _ hs => .ok ⟨hs, rfl⟩
    exact agree_reached (exec_agree h hfuel body _ _ hbody (h.bind hs iterator.name (.int i)))
  -- the second run may have fuel left when the first has none, and then need not agree
  | .whileLoop span condition body, s, s', ht, hs => by
    rw [exec, exec]
    have hcondition : shared condition := h.part ht (by simp [parts])
    have hbody : shared body := h.part ht (by simp [parts])
    refine (repeatWhile_agree (fun s s' hs => h.tests hs hcondition) (fun s s' hs => ?_) hfuel
      hs).bind fun _ _ hs => .ok ⟨hs, rfl⟩
    exact agree_reached (exec_agree h hfuel body s s' hbody hs)
  | .print span argument, s, s', ht, hs => by
    rw [exec, exec]
    refine (h.evaluates hs (h.part ht (by simp [parts]))).bind ?_
    rintro v _ rfl
    exact .ok ⟨h.print hs v, rfl⟩
  | .number .., s, s', ht, hs | .boolean .., s, s', ht, hs | .string .., s, s', ht, hs
  | .reference .., s, s', ht, hs | .binary .., s, s', ht, hs | .list .., s, s', ht, hs
  | .call .., s, s', ht, hs => by
    simp only [exec]
    refine (h.evaluates hs ht).bind ?_
    rintro v _ rfl
    exact .ok ⟨hs, rfl⟩

/-- Statements that run twice in lockstep come to the same end. -/
theorem execAll_agree (h : LockstepOn shared builtins builtins' R) (hfuel : fuel ≤ fuel') :
    ∀ (ts : List Tree) (s s' : State) (value : Option Value), (∀ t ∈ ts, shared t) → R s s' →
      Agree R (Progress.Agree R) (execAll builtins fuel ts s value)
        (execAll builtins' fuel' ts s' value)
  | [], s, s', value, hts, hs => by
    rw [execAll, execAll]
    exact .ok ⟨hs, rfl⟩
  | t :: rest, s, s', value, hts, hs => by
    rw [execAll, execAll]
    obtain ⟨ht, hrest⟩ := List.forall_mem_cons.mp hts
    refine (exec_agree h hfuel t s s' ht hs).bind fun reached reached' hreached => ?_
    rw [← hreached.2]
    exact execAll_agree h hfuel rest _ _ _ hrest hreached.1

end

end Tree

end Plume
