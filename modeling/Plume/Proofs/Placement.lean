import Plume.Run.Statement

/-!
# Statements in their place

An evaluation faults on a statement. A tree is placed if no statement stands where an expression is
evaluated; a run of placed statements never faults that way (`Program.fault_eq_of_arePlaced`),
whatever the environment and the functions are. Loops are what makes this more than a look at the
tree: the run lemmas `forEach_failsOnly` and `repeatWhile_failsOnly` carry it through every round.
-/

namespace Plume

/-! ## Results and their errors -/

/-- Every error of a result has the property `p`. -/
def FailsOnly {ε α : Type} (p : ε → Prop) (r : Except ε α) : Prop := ∀ e, r = .error e → p e

section FailsOnly

variable {ε ε' α β : Type} {p : ε → Prop} {q : ε' → Prop}

theorem failsOnly_ok (a : α) : FailsOnly p (.ok a : Except ε α) := by
  intro e h
  cases h

theorem failsOnly_error {e : ε} (he : p e) : FailsOnly p (.error e : Except ε α) := by
  intro e' h
  cases h
  exact he

/-- A computation in two steps fails as one of them does. -/
theorem FailsOnly.bind {x : Except ε α} {f : α → Except ε β} (hx : FailsOnly p x)
    (hf : ∀ a, FailsOnly p (f a)) : FailsOnly p (x >>= f) := by
  cases x with
  | error e => exact failsOnly_error (hx e rfl)
  | ok a => exact hf a

/-- Failures that are told in other words. -/
theorem FailsOnly.mapError {x : Except ε α} {g : ε → ε'} (hx : FailsOnly p x)
    (hg : ∀ e, p e → q (g e)) : FailsOnly q (x.mapError g) := by
  cases x with
  | error e => exact failsOnly_error (hg e (hx e rfl))
  | ok a => exact failsOnly_ok a

/-- What a success is made into does not matter to failures. -/
theorem FailsOnly.map {x : Except ε α} {f : α → β} (hx : FailsOnly p x) :
    FailsOnly p (x.map f) := by
  cases x with
  | error e => exact failsOnly_error (hx e rfl)
  | ok a => exact failsOnly_ok (f a)

end FailsOnly

/-! ## Placed trees -/

namespace Tree

mutual

/-- Whether a tree is an expression without statements in it. -/
def isPure : Tree → Bool
  | .number .. | .boolean .. | .string .. | .reference .. => true
  | .binary _ _ left right => isPure left && isPure right
  | .list _ items => arePure items
  | .call _ _ arguments => arePure arguments
  | .block .. | .assign .. | .ifThen .. | .ifElse .. | .forRange .. | .whileLoop .. | .print .. =>
    false

/-- Whether all of some trees are expressions without statements in them. -/
def arePure : List Tree → Bool
  | [] => true
  | t :: rest => isPure t && arePure rest

end

mutual

/-- Whether no statement stands where an expression is evaluated. -/
def isPlaced : Tree → Bool
  | .block _ statements => arePlaced statements
  | .assign _ _ value => isPure value
  | .ifThen _ condition body => isPure condition && isPlaced body
  | .ifElse _ condition body otherwise =>
    isPure condition && isPlaced body && isPlaced otherwise
  | .forRange _ _ first stop body => isPure first && isPure stop && isPlaced body
  | .whileLoop _ condition body => isPure condition && isPlaced body
  | .print _ argument => isPure argument
  | e => isPure e

/-- Whether no statement stands where an expression is evaluated in any of some trees. -/
def arePlaced : List Tree → Bool
  | [] => true
  | t :: rest => isPlaced t && arePlaced rest

end

theorem arePure_of_forall {es : List Tree} (h : ∀ e ∈ es, e.isPure = true) :
    arePure es = true := by
  induction es with
  | nil => rw [arePure]
  | cons e rest ih =>
    obtain ⟨he, hrest⟩ := List.forall_mem_cons.mp h
    rw [arePure, he, ih hrest, Bool.and_self]

theorem arePlaced_of_forall {ts : List Tree} (h : ∀ t ∈ ts, t.isPlaced = true) :
    arePlaced ts = true := by
  induction ts with
  | nil => rw [arePlaced]
  | cons t rest ih =>
    obtain ⟨ht, hrest⟩ := List.forall_mem_cons.mp h
    rw [arePlaced, ht, ih hrest, Bool.and_self]

/-- An expression may stand wherever a statement may. -/
theorem isPlaced_of_isPure {e : Tree} (h : e.isPure = true) : e.isPlaced = true := by
  cases e <;> first | exact h | simp [isPure] at h

end Tree

/-! ## Evaluations -/

/-- A problem, or a fault that an operator can have. -/
def Stop.Operational {α : Type} : Stop α → Prop
  | .problem _ => True
  | .fault f => f ≠ .misplacedStatement

namespace Value

/-- The check of a length has nothing to do with where a statement stands. -/
theorem checkLength_failsOnly (length : Nat) : FailsOnly Stop.Operational (checkLength length) := by
  unfold checkLength
  split
  · exact failsOnly_ok ()
  · exact failsOnly_error trivial

/-- No repetition fails for a misplaced statement. -/
theorem times?_failsOnly {count : Int} {v : Value} {r : Except (Stop Problem) Value}
    (h : v.times? count = some r) : FailsOnly Stop.Operational r := by
  cases v with
  | str t =>
    obtain rfl := Option.some.inj h
    refine (checkLength_failsOnly _).bind fun _ => ?_
    split
    · exact failsOnly_error (by rintro ⟨⟩)
    · exact failsOnly_ok _
  | list items =>
    obtain rfl := Option.some.inj h
    refine (checkLength_failsOnly _).bind fun _ => ?_
    split
    · exact failsOnly_error (by rintro ⟨⟩)
    · exact failsOnly_ok _
  | _ => cases h

/-- No joining fails for a misplaced statement. -/
theorem append?_failsOnly {a b : Value} {r : Except (Stop Problem) Value}
    (h : a.append? b = some r) : FailsOnly Stop.Operational r := by
  unfold append? at h
  split at h
  · obtain rfl := Option.some.inj h
    exact (checkLength_failsOnly _).bind fun _ => failsOnly_ok _
  · obtain rfl := Option.some.inj h
    exact (checkLength_failsOnly _).bind fun _ => failsOnly_ok _
  · cases h

/-- No operation on texts and lists fails for a misplaced statement. -/
theorem combine?_failsOnly {op : Arithmetic} {a b : Value} {r : Except (Stop Problem) Value}
    (h : combine? op a b = some r) : FailsOnly Stop.Operational r := by
  unfold combine? at h
  split at h
  · exact append?_failsOnly h
  · split at h
    · exact times?_failsOnly h
    · exact times?_failsOnly h
    · cases h
  · cases h

/-- No arithmetic fails for a misplaced statement. -/
theorem calculate_failsOnly (op : Arithmetic) (a b : Value) :
    FailsOnly Stop.Operational (calculate op a b) := by
  unfold calculate
  split
  · split
    · exact failsOnly_ok _
    · exact failsOnly_error trivial
  · cases h : combine? op a b with
    | none => exact failsOnly_error trivial
    | some r => exact combine?_failsOnly h

/-- No operator fails for a misplaced statement. -/
theorem operate_failsOnly (op : Operator) (a b : Value) :
    FailsOnly Stop.Operational (operate op a b) := by
  cases op with
  | arithmetic op => exact calculate_failsOnly op a b
  | relation op =>
    have hrelate : FailsOnly (fun _ => True) (relate op a b) := fun _ _ => trivial
    exact (hrelate.map).mapError fun _ _ => trivial

end Value

namespace Tree

variable {builtins : Builtins} {fuel : Nat}

mutual

/-- The evaluation of an expression without statements never faults on a statement. -/
theorem eval_failsOnly (env : Environment) :
    ∀ e : Tree, e.isPure = true → FailsOnly Stop.Operational (e.eval builtins env)
  | .number .., _ | .boolean .., _ | .string .., _ => by
    simp only [eval]
    exact failsOnly_ok _
  | .reference span name, _ => by
    rw [eval]
    split
    · exact failsOnly_ok _
    · exact failsOnly_error trivial
  | .binary span op left right, h => by
    rw [isPure, Bool.and_eq_true] at h
    rw [eval]
    refine (eval_failsOnly env left h.1).bind fun a => ?_
    refine (eval_failsOnly env right h.2).bind fun b => ?_
    refine (Value.operate_failsOnly op a b).mapError ?_
    rintro (p | f) hs
    · trivial
    · exact hs
  | .list span items, h => by
    rw [isPure] at h
    rw [eval]
    exact (evalAll_failsOnly env items h).bind fun _ => failsOnly_ok _
  -- a function fails with messages of its own, none of them about statements
  | .call span callee arguments, h => by
    rw [isPure] at h
    rw [eval]
    split
    next f hf =>
      refine (evalAll_failsOnly env arguments h).bind fun values => ?_
      have happly : FailsOnly (fun _ => True) (f.apply callee.name values) := fun _ _ => trivial
      exact happly.mapError fun _ _ => trivial
    next => exact failsOnly_error trivial

/-- Values of expressions never fail for a misplaced statement. -/
theorem evalAll_failsOnly (env : Environment) :
    ∀ es : List Tree, arePure es = true → FailsOnly Stop.Operational (evalAll builtins env es)
  | [], _ => by
    rw [evalAll]
    exact failsOnly_ok _
  | e :: rest, h => by
    rw [arePure, Bool.and_eq_true] at h
    rw [evalAll]
    refine (eval_failsOnly env e h.1).bind fun v => ?_
    exact (evalAll_failsOnly env rest h.2).bind fun _ => failsOnly_ok _

end

end Tree

/-! ## Runs -/

/-- A halt at a problem, for lack of fuel, or by a fault that an operator can have. -/
def Halt.Operational (h : Halt) : Prop := h.cause ≠ .error (.fault .misplacedStatement)

namespace State

variable {builtins : Builtins} {e : Tree} (s : State)

/-- In a state as in an environment, an expression never fails for a misplaced statement. -/
theorem eval_failsOnly (he : e.isPure = true) : FailsOnly Halt.Operational (s.eval builtins e) := by
  refine (Tree.eval_failsOnly s.environment e he).mapError ?_
  rintro (d | f) hs
  · rintro ⟨⟩
  · rintro ⟨⟩
    exact hs rfl

theorem test_failsOnly (he : e.isPure = true) : FailsOnly Halt.Operational (s.test builtins e) :=
  (s.eval_failsOnly he).map

theorem bound_failsOnly (he : e.isPure = true) :
    FailsOnly Halt.Operational (s.bound builtins e) := by
  refine (s.eval_failsOnly he).bind fun v => ?_
  split
  · exact failsOnly_ok _
  · refine failsOnly_error ?_
    rintro ⟨⟩

end State

/-- What every round of a `for` loop fails with is what the loop fails with. -/
theorem forEach_failsOnly {p : Halt → Prop} {body : Int → State → Except Halt State}
    (hbody : ∀ i s, FailsOnly p (body i s)) (count : Nat) (i : Int) (s : State) :
    FailsOnly p (forEach body count i s) := by
  induction count generalizing i s with
  | zero => exact failsOnly_ok s
  | succ count ih => exact (hbody i s).bind fun s' => ih (i + 1) s'

/-- What every test and every round of a `while` loop fails with is what the loop fails with, unless
it has no fuel left. -/
theorem repeatWhile_failsOnly {p : Halt → Prop} {test : State → Except Halt Bool}
    {body : State → Except Halt State} (hfuel : ∀ s, p ⟨.error .outOfFuel, s⟩)
    (htest : ∀ s, FailsOnly p (test s)) (hbody : ∀ s, FailsOnly p (body s)) (fuel : Nat)
    (s : State) : FailsOnly p (repeatWhile test body fuel s) := by
  induction fuel generalizing s with
  | zero => exact failsOnly_error (hfuel s)
  | succ fuel ih =>
    refine (htest s).bind fun holds => ?_
    split
    · exact (hbody s).bind ih
    · exact failsOnly_ok s

namespace Tree

variable {builtins : Builtins} {fuel : Nat}

mutual

/-- A run of placed statements never faults on a statement. -/
theorem exec_failsOnly : ∀ (t : Tree) (s : State), t.isPlaced = true →
    FailsOnly Halt.Operational (exec builtins fuel t s)
  | .block span statements, s, h => by
    rw [isPlaced] at h
    rw [exec]
    exact (execAll_failsOnly statements s none h).bind fun _ => failsOnly_ok _
  | .assign span target value, s, h => by
    rw [exec]
    exact (s.eval_failsOnly h).bind fun _ => failsOnly_ok _
  | .ifThen span condition body, s, h => by
    rw [isPlaced, Bool.and_eq_true] at h
    rw [exec]
    refine (s.test_failsOnly h.1).bind fun holds => ?_
    split
    · exact (exec_failsOnly body s h.2).bind fun _ => failsOnly_ok _
    · exact failsOnly_ok _
  | .ifElse span condition body otherwise, s, h => by
    rw [isPlaced, Bool.and_eq_true, Bool.and_eq_true] at h
    rw [exec]
    refine (s.test_failsOnly h.1.1).bind fun holds => ?_
    split
    · exact (exec_failsOnly body s h.1.2).bind fun _ => failsOnly_ok _
    · exact (exec_failsOnly otherwise s h.2).bind fun _ => failsOnly_ok _
  | .forRange span iterator first stop body, s, h => by
    rw [isPlaced, Bool.and_eq_true, Bool.and_eq_true] at h
    rw [exec]
    refine (s.bound_failsOnly h.1.1).bind fun a => ?_
    refine (s.bound_failsOnly h.1.2).bind fun z => ?_
    refine (forEach_failsOnly (fun i s => ?_) _ _ s).bind fun _ => failsOnly_ok _
    exact (exec_failsOnly body _ h.2).bind fun _ => failsOnly_ok _
  -- running out of fuel is no fault of a statement
  | .whileLoop span condition body, s, h => by
    rw [isPlaced, Bool.and_eq_true] at h
    rw [exec]
    refine (repeatWhile_failsOnly ?_ (fun s => s.test_failsOnly h.1) (fun s => ?_) fuel s).bind
      fun _ => failsOnly_ok _
    · rintro s ⟨⟩
    · exact (exec_failsOnly body s h.2).bind fun _ => failsOnly_ok _
  | .print span argument, s, h => by
    rw [exec]
    exact (s.eval_failsOnly h).bind fun _ => failsOnly_ok _
  | .number .., s, h | .boolean .., s, h | .string .., s, h | .reference .., s, h
  | .binary .., s, h | .list .., s, h | .call .., s, h => by
    simp only [exec]
    exact (s.eval_failsOnly h).bind fun _ => failsOnly_ok _

/-- A sequence of placed statements never fails for a misplaced one. -/
theorem execAll_failsOnly : ∀ (ts : List Tree) (s : State) (value : Option Value),
    arePlaced ts = true → FailsOnly Halt.Operational (execAll builtins fuel ts s value)
  | [], s, value, _ => by
    rw [execAll]
    exact failsOnly_ok _
  | t :: rest, s, value, h => by
    rw [arePlaced, Bool.and_eq_true] at h
    rw [execAll]
    exact (exec_failsOnly t s h.1).bind fun reached => execAll_failsOnly rest _ _ h.2

end

end Tree

/-- Only an operator can make a program of placed statements end with a fault. -/
theorem Program.run_ne_misplacedStatement {p : Program} {fuel : Nat} {builtins : Builtins}
    {env : Environment} (hp : Tree.arePlaced p.statements = true) :
    p.run fuel builtins env ≠ .error (.fault .misplacedStatement) := by
  intro h
  unfold Program.run at h
  split at h
  · cases h
  · cases h
  next a s hexec =>
    cases h
    exact Tree.execAll_failsOnly p.statements _ none hp _ hexec rfl

end Plume
