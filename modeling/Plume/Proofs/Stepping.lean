import Plume.Proofs.Placement
import Plume.Proofs.Sequencing

/-!
# Runs step by step

A run is a function of its program, and says nothing of the moments in between. Here the same run is
made by a machine that does one thing at a time: it evaluates one expression, and binds or prints
one value. The states that it is in after each of its steps are the states that the run passes
(`Program.Passes`), also where a loop never ends.

## Shape of the definitions

The machine holds a list of tasks. A step takes the first one away and puts in its place what is
left to do of it, so that a loop is a task that comes back after each round.

## Shape of the proof

The machine follows the run of a statement to the state that it reaches or halts in, and makes at
least as many steps as there is fuel where the run is out of fuel (`Tree.exec_follows`). So the two
come to the same end: no end of the machine is missed by the runs with enough fuel
(`Tree.ends_iff_execAll`).
-/

namespace Plume

/-! ## The machine -/

/-- Something that is left to do in a run. -/
inductive Task where
  /-- Run a statement. -/
  | run (t : Tree)
  /-- Run the body of a loop for `count` integers in a row, the first being `i`. -/
  | rounds (iterator : Ident) (body : Tree) (count : Nat) (i : Int)
  /-- Give up the value of the statement before. -/
  | forget

/-- What is left to do, and what has been reached. -/
structure Machine where
  tasks : List Task
  reached : Progress

/-- The bounds of a loop over a range, the first one being evaluated first. -/
def State.bounds (builtins : Builtins) (s : State) (first stop : Tree) :
    Except Halt (Int × Int) := do
  let a ← s.bound builtins first
  let z ← s.bound builtins stop
  return (a, z)

/-- The first step of a task: what is left to do of it, and what has been reached. -/
def Task.step (builtins : Builtins) : Task → State → Except Halt Machine
  | .run (.block _ statements), s => .ok ⟨statements.map .run ++ [.forget], ⟨s, none⟩⟩
  | .run (.assign _ target value), s =>
    (s.eval builtins value).map fun v => ⟨[], ⟨s.bind target.name v, some v⟩⟩
  | .run (.ifThen _ condition body), s =>
    (s.test builtins condition).map fun holds =>
      ⟨if holds then [.run body, .forget] else [], ⟨s, none⟩⟩
  | .run (.ifElse _ condition body otherwise), s =>
    (s.test builtins condition).map fun holds =>
      ⟨[.run (if holds then body else otherwise), .forget], ⟨s, none⟩⟩
  | .run (.forRange _ iterator first stop body), s =>
    (s.bounds builtins first stop).map fun range =>
      ⟨[.rounds iterator body (range.2 - range.1).toNat range.1], ⟨s, none⟩⟩
  | .run (.whileLoop span condition body), s =>
    (s.test builtins condition).map fun holds =>
      ⟨if holds then [.run body, .run (.whileLoop span condition body)] else [], ⟨s, none⟩⟩
  | .run (.print _ argument), s =>
    (s.eval builtins argument).map fun v => ⟨[], ⟨s.print v, none⟩⟩
  | .run expression, s => (s.eval builtins expression).map fun v => ⟨[], ⟨s, some v⟩⟩
  | .rounds _ _ 0 _, s => .ok ⟨[], ⟨s, none⟩⟩
  | .rounds iterator body (count + 1) i, s =>
    .ok ⟨[.run body, .rounds iterator body count (i + 1)], ⟨s.bind iterator.name (.int i), none⟩⟩
  | .forget, s => .ok ⟨[], ⟨s, none⟩⟩

namespace Machine

/-- The machine with more to do behind all else. -/
def before (rest : List Task) (m : Machine) : Machine := ⟨m.tasks ++ rest, m.reached⟩

/-- One step. A machine with nothing left to do stays as it is. -/
def step (builtins : Builtins) (m : Machine) : Except Halt Machine :=
  match m.tasks with
  | [] => .ok m
  | task :: rest => (task.step builtins m.reached.state).map (before rest)

/-- The machine after `n` steps. -/
def after (builtins : Builtins) : Nat → Machine → Except Halt Machine
  | 0, m => .ok m
  | n + 1, m => do (← m.step builtins).after builtins n

/-- The machine comes to the given end. -/
def Ends (builtins : Builtins) (m : Machine) (x : Except Halt Progress) : Prop :=
  ∃ n, m.after builtins n = x.map (mk [])

variable {builtins : Builtins} {m m' : Machine} {n : Nat} {x y : Except Halt Progress}

/-- Steps are taken in two parts, one after the other. -/
theorem after_add (n k : Nat) (m : Machine) :
    m.after builtins (n + k) = (do (← m.after builtins n).after builtins k) := by
  induction n generalizing m with
  | zero => rw [Nat.zero_add]; rfl
  | succ n ih =>
    rw [Nat.succ_add, after, after]
    simp only [ih, bind_assoc]

/-- What holds at first and is kept by every step holds after any number of steps. -/
theorem after_induction {I : Machine → Prop} (hstart : I m)
    (hstep : ∀ n m₁ m₂, m.after builtins n = .ok m₁ → I m₁ → m₁.step builtins = .ok m₂ → I m₂)
    (h : m.after builtins n = .ok m') : I m' := by
  induction n generalizing m' with
  | zero =>
    cases h
    exact hstart
  | succ n ih =>
    rw [after_add, bind_eq_ok] at h
    obtain ⟨m₁, hn, hlast⟩ := h
    rw [after, bind_eq_ok] at hlast
    obtain ⟨m₂, hlast, hsame⟩ := hlast
    cases hsame
    exact hstep n m₁ m' hn (ih hn) hlast

/-- A machine that has come to an end stays there. -/
theorem after_of_end (h : m.after builtins n = x.map (mk [])) (k : Nat) :
    m.after builtins (n + k) = x.map (mk []) := by
  rw [after_add, h]
  cases x with
  | error halt => rfl
  | ok reached =>
    induction k with
    | zero => rfl
    | succ k ih => exact ih

/-- A machine comes to one end at most. -/
theorem Ends.unique (hx : m.Ends builtins x) (hy : m.Ends builtins y) : x = y := by
  obtain ⟨n, hn⟩ := hx
  obtain ⟨k, hk⟩ := hy
  have hsame : x.map (mk []) = y.map (mk []) := by
    rw [← after_of_end hn k, Nat.add_comm, after_of_end hk n]
  cases x <;> cases y <;> cases hsame <;> rfl

end Machine

/-! ## Where a step halts -/

/-- A halt in the given state, and not for lack of fuel. -/
def Halt.IsAt (s : State) (h : Halt) : Prop := h.state = s ∧ h.cause ≠ .error .outOfFuel

namespace State

variable {builtins : Builtins} (s : State)

/-- A run that halts in a state is in that state. -/
theorem halt_isAt (stop : Stop Diagnostic) : (s.halt stop).IsAt s := by
  cases stop with
  | problem d => exact ⟨rfl, by rintro ⟨⟩⟩
  | fault f => exact ⟨rfl, by rintro ⟨⟩⟩

/-- An expression halts in the state that it is evaluated in. -/
theorem eval_isAt (e : Tree) : FailsOnly (Halt.IsAt s) (s.eval builtins e) := by
  have hany : FailsOnly (fun _ => True) (e.eval builtins s.environment) := fun _ _ => trivial
  exact hany.mapError fun stop _ => s.halt_isAt stop

theorem test_isAt (condition : Tree) : FailsOnly (Halt.IsAt s) (s.test builtins condition) :=
  (s.eval_isAt condition).map

theorem bound_isAt (e : Tree) : FailsOnly (Halt.IsAt s) (s.bound builtins e) := by
  refine (s.eval_isAt e).bind fun v => ?_
  split
  · exact failsOnly_ok _
  · exact failsOnly_error ⟨rfl, by rintro ⟨⟩⟩

theorem bounds_isAt (first stop : Tree) :
    FailsOnly (Halt.IsAt s) (s.bounds builtins first stop) :=
  (s.bound_isAt first).bind fun _ => (s.bound_isAt stop).bind fun _ => failsOnly_ok _

end State

/-- A step halts in the state that it starts from. -/
theorem Task.step_isAt {builtins : Builtins} (task : Task) (s : State) :
    FailsOnly (Halt.IsAt s) (task.step builtins s) := by
  unfold Task.step
  split
  · exact failsOnly_ok _
  · exact (s.eval_isAt _).map
  · exact (s.test_isAt _).map
  · exact (s.test_isAt _).map
  · exact (s.bounds_isAt _ _).map
  · exact (s.test_isAt _).map
  · exact (s.eval_isAt _).map
  · exact (s.eval_isAt _).map
  · exact failsOnly_ok _
  · exact failsOnly_ok _
  · exact failsOnly_ok _

/-- A machine that halts has been in the state that it halts in. -/
theorem Machine.exists_of_after_eq_error {builtins : Builtins} {m : Machine} {n : Nat} {h : Halt}
    (herror : m.after builtins n = .error h) :
    ∃ k m', m.after builtins k = .ok m' ∧ h.IsAt m'.reached.state := by
  induction n with
  | zero => cases herror
  | succ n ih =>
    rw [after_add] at herror
    cases hn : m.after builtins n with
    -- the machine had halted before
    | error h' =>
      rw [hn] at herror
      cases herror
      exact ih hn
    -- it halts in this step, which changes nothing first
    | ok m' =>
      rw [hn] at herror
      refine ⟨n, m', hn, ?_⟩
      have hhere : FailsOnly (Halt.IsAt m'.reached.state) (m'.after builtins 1) := by
        refine FailsOnly.bind ?_ fun _ => failsOnly_ok _
        unfold Machine.step
        split
        · exact failsOnly_ok _
        · exact (Task.step_isAt _ _).map
      exact hhere h herror

/-! ## The machine follows the run -/

/-- A machine gets to where a run has got with the given fuel: to the machine that the run leaves,
or to its halt. If the run is out of fuel, the machine is in the same state and has made as many
steps as there was fuel, with more to do. -/
inductive Follows (builtins : Builtins) (fuel : Nat) (m : Machine) : Except Halt Machine → Prop
  | reaches {n : Nat} {m' : Machine} : m.after builtins n = .ok m' →
      Follows builtins fuel m (.ok m')
  | halts {n : Nat} {h : Halt} : m.after builtins n = .error h →
      Follows builtins fuel m (.error h)
  | outOfFuel {n : Nat} {m' : Machine} : fuel ≤ n → m.after builtins n = .ok m' → m'.tasks ≠ [] →
      Follows builtins fuel m (.error ⟨.error .outOfFuel, m'.reached.state⟩)

namespace Follows

variable {builtins : Builtins} {fuel fuel' : Nat} {m m' : Machine} {x : Except Halt Machine}

/-- Less fuel asks for fewer steps. -/
theorem mono (h : Follows builtins fuel m x) (hfuel : fuel' ≤ fuel) :
    Follows builtins fuel' m x := by
  cases h with
  | reaches hn => exact .reaches hn
  | halts hn => exact .halts hn
  | outOfFuel hle hn htasks => exact .outOfFuel (Nat.le_trans hfuel hle) hn htasks

/-- What a machine gets to from where another has got. -/
theorem trans {n : Nat} (hn : m.after builtins n = .ok m') (h : Follows builtins fuel m' x) :
    Follows builtins (n + fuel) m x := by
  have hsplit : ∀ k, m.after builtins (n + k) = m'.after builtins k := by
    intro k
    rw [Machine.after_add, hn]
    rfl
  cases h with
  | reaches hk => exact .reaches ((hsplit _).trans hk)
  | halts hk => exact .halts ((hsplit _).trans hk)
  | outOfFuel hle hk htasks => exact .outOfFuel (by omega) ((hsplit _).trans hk) htasks

/-- A machine that follows a first part of a run and then the rest follows the whole. -/
theorem bind {α : Type} {a : Except Halt α} {g : α → Machine} {f : α → Except Halt Machine}
    (ha : Follows builtins fuel m (g <$> a)) (hf : ∀ v, Follows builtins fuel (g v) (f v)) :
    Follows builtins fuel m (a >>= f) := by
  cases a with
  | ok v =>
    cases ha with
    | reaches hn => exact (trans hn (hf v)).mono (Nat.le_add_left ..)
  | error h =>
    cases ha with
    | halts hn => exact .halts hn
    | outOfFuel hle hn htasks => exact .outOfFuel hle hn htasks

/-- A task that evaluates something, and goes on with the value as the run does. -/
theorem step {task : Task} {rest : List Task} {s : State} {value : Option Value} {α : Type}
    {a : Except Halt α} {g : α → Machine} {f : α → Except Halt Machine}
    (hstep : task.step builtins s = a.map g)
    (hf : ∀ v, Follows builtins fuel ((g v).before rest) (f v)) :
    Follows builtins (fuel + 1) ⟨task :: rest, ⟨s, value⟩⟩ (a >>= f) := by
  have hone : Machine.after builtins 1 ⟨task :: rest, ⟨s, value⟩⟩
      = a.map fun v => (g v).before rest := by
    have hfirst : Machine.step builtins ⟨task :: rest, ⟨s, value⟩⟩
        = (task.step builtins s).map (Machine.before rest) := rfl
    rw [Machine.after, hfirst, hstep]
    cases a <;> rfl
  cases a with
  | error h => exact .halts hone
  | ok v =>
    rw [Nat.add_comm]
    exact trans hone (hf v)

/-- A machine that follows a run to its end ends there, unless the run is out of fuel. -/
theorem ends {y : Except Halt Progress} (h : Follows builtins fuel m (Machine.mk [] <$> y)) :
    m.Ends builtins y ∨ ∃ n m', fuel ≤ n ∧ m.after builtins n = .ok m' ∧ m'.tasks ≠ []
      ∧ y = .error ⟨.error .outOfFuel, m'.reached.state⟩ := by
  cases y with
  | ok reached =>
    cases h with
    | reaches hn => exact .inl ⟨_, hn⟩
  | error halt =>
    cases h with
    | halts hn => exact .inl ⟨_, hn⟩
    | outOfFuel hle hn htasks => exact .inr ⟨_, _, hle, hn, htasks, rfl⟩

end Follows

namespace Tree

variable {builtins : Builtins} {fuel : Nat} {rest : List Task} {s : State} {value : Option Value}

/-- A value is forgotten in one step. -/
theorem forget_follows (reached : Progress) :
    Follows builtins fuel ⟨.forget :: rest, reached⟩ (.ok ⟨rest, ⟨reached.state, none⟩⟩) :=
  .reaches (n := 1) rfl

/-- A `for` with both bounds of its range at once. -/
theorem exec_forRange (span : Span) (iterator : Ident) (first stop body : Tree) (s : State) :
    exec builtins fuel (.forRange span iterator first stop body) s = (do
      let range ← s.bounds builtins first stop
      let s ← forEach (fun i s => do
        let reached ← exec builtins fuel body (s.bind iterator.name (.int i))
        return reached.state) (range.2 - range.1).toNat range.1 s
      return ⟨s, none⟩) := by
  simp only [exec, State.bounds, bind_assoc, pure_bind]

/-- A loop over a range is followed through all its rounds if its body is followed. -/
theorem forEach_follows {iterator : Ident} {body : Tree}
    (hbody : ∀ rest s value, Follows builtins fuel ⟨.run body :: rest, ⟨s, value⟩⟩
      (Machine.mk rest <$> exec builtins fuel body s)) (count : Nat) (i : Int) :
    Follows builtins fuel ⟨.rounds iterator body count i :: rest, ⟨s, value⟩⟩ (do
      let s ← forEach (fun i s => do
        let reached ← exec builtins fuel body (s.bind iterator.name (.int i))
        return reached.state) count i s
      return ⟨rest, ⟨s, none⟩⟩) := by
  induction count generalizing i s value with
  | zero => exact .reaches (n := 1) rfl
  | succ count ih =>
    simp only [forEach, bind_assoc, pure_bind]
    refine (Follows.trans (n := 1) rfl ?_).mono (Nat.le_add_left ..)
    exact (hbody _ _ none).bind fun reached => ih (i + 1)

/-- A `while` loop is followed through all its rounds if its body is followed. -/
theorem repeatWhile_follows {span : Span} {condition body : Tree}
    (hbody : ∀ rest s value, Follows builtins fuel ⟨.run body :: rest, ⟨s, value⟩⟩
      (Machine.mk rest <$> exec builtins fuel body s)) {tests : Nat} (htests : tests ≤ fuel) :
    Follows builtins tests ⟨.run (.whileLoop span condition body) :: rest, ⟨s, value⟩⟩ (do
      let s ← repeatWhile (fun s => s.test builtins condition) (fun s => do
        let reached ← exec builtins fuel body s
        return reached.state) tests s
      return ⟨rest, ⟨s, none⟩⟩) := by
  induction tests generalizing s value with
  -- no test is left, and the loop is still to do
  | zero => exact .outOfFuel (n := 0) (Nat.le_refl 0) rfl (List.cons_ne_nil _ _)
  | succ tests ih =>
    simp only [repeatWhile, bind_assoc]
    refine Follows.step rfl fun holds => ?_
    cases holds with
    | false => exact .reaches (n := 0) rfl
    | true =>
      simp only [if_true, bind_assoc, pure_bind]
      exact ((hbody _ s none).mono (Nat.le_of_lt htests)).bind
        fun reached => ih (Nat.le_of_lt htests)

mutual

/-- The machine follows the run of a statement. -/
theorem exec_follows : ∀ (t : Tree) (rest : List Task) (s : State) (value : Option Value),
    Follows builtins fuel ⟨.run t :: rest, ⟨s, value⟩⟩
      (Machine.mk rest <$> exec builtins fuel t s)
  | .block span statements, rest, s, value => by
    rw [exec]
    simp only [map_bind, map_pure]
    -- the statements of a block become tasks, and behind them the task that forgets their value
    have hstart : Machine.after builtins 1 ⟨.run (.block span statements) :: rest, ⟨s, value⟩⟩
        = .ok ⟨statements.map .run ++ .forget :: rest, ⟨s, none⟩⟩ := by
      rw [List.append_cons]
      rfl
    refine (Follows.trans hstart ?_).mono (Nat.le_add_left ..)
    exact (execAll_follows statements _ s none).bind forget_follows
  | .assign span target value, rest, s, _ => by
    rw [exec]
    simp only [map_bind, map_pure]
    refine (Follows.step rfl fun v => ?_).mono (Nat.le_succ fuel)
    exact .reaches (n := 0) rfl
  | .ifThen span condition body, rest, s, value => by
    rw [exec]
    simp only [map_bind]
    refine (Follows.step rfl fun holds => ?_).mono (Nat.le_succ fuel)
    cases holds with
    | true =>
      simp only [if_true, map_bind, map_pure]
      exact (exec_follows body _ s none).bind forget_follows
    | false => exact .reaches (n := 0) rfl
  | .ifElse span condition body otherwise, rest, s, value => by
    rw [exec]
    simp only [map_bind]
    refine (Follows.step rfl fun holds => ?_).mono (Nat.le_succ fuel)
    cases holds with
    | true =>
      simp only [if_true, map_bind, map_pure]
      exact (exec_follows body _ s none).bind forget_follows
    | false =>
      simp only [Bool.false_eq_true, if_false, map_bind, map_pure]
      exact (exec_follows otherwise _ s none).bind forget_follows
  -- a loop is one step to its bounds or its condition, and then a run of its body for each round
  | .forRange span iterator first stop body, rest, s, value => by
    rw [exec_forRange]
    simp only [map_bind, map_pure]
    refine (Follows.step rfl fun range => ?_).mono (Nat.le_succ fuel)
    exact forEach_follows (exec_follows body) _ _
  | .whileLoop span condition body, rest, s, value => by
    rw [exec]
    simp only [map_bind, map_pure]
    exact repeatWhile_follows (exec_follows body) (Nat.le_refl fuel)
  | .print span argument, rest, s, value => by
    rw [exec]
    simp only [map_bind, map_pure]
    refine (Follows.step rfl fun v => ?_).mono (Nat.le_succ fuel)
    exact .reaches (n := 0) rfl
  -- an expression is a single step, and leaves its value behind
  | .number .., rest, s, value | .boolean .., rest, s, value | .string .., rest, s, value
  | .reference .., rest, s, value | .binary .., rest, s, value | .list .., rest, s, value
  | .call .., rest, s, value => by
    simp only [exec, map_bind, map_pure]
    refine (Follows.step (g := fun v => ⟨[], ⟨s, some v⟩⟩) rfl fun v => ?_).mono (Nat.le_succ fuel)
    exact .reaches (n := 0) rfl

/-- The machine follows the run of statements. -/
theorem execAll_follows : ∀ (ts : List Tree) (rest : List Task) (s : State) (value : Option Value),
    Follows builtins fuel ⟨ts.map .run ++ rest, ⟨s, value⟩⟩
      (Machine.mk rest <$> execAll builtins fuel ts s value)
  | [], rest, s, value => by
    rw [execAll]
    exact .reaches (n := 0) rfl
  | t :: ts, rest, s, value => by
    rw [execAll]
    simp only [map_bind]
    exact (exec_follows t _ s value).bind fun reached =>
      execAll_follows ts rest reached.state reached.value

end

end Tree

/-! ## Whole programs -/

namespace Program

variable {p : Program} {builtins : Builtins} {env : Environment} {s : State}

/-- The machine that runs a program. -/
def machine (p : Program) (env : Environment) : Machine :=
  ⟨p.statements.map .run, ⟨.start env, none⟩⟩

/-- The run of a program is in the given state at some moment. -/
def Passes (builtins : Builtins) (env : Environment) (p : Program) (s : State) : Prop :=
  ∃ n m, (p.machine env).after builtins n = .ok m ∧ m.reached.state = s

/-- The machine of a program follows its statements. -/
theorem machine_follows (builtins : Builtins) (fuel : Nat) (env : Environment) (p : Program) :
    Follows builtins fuel (p.machine env)
      (Machine.mk [] <$> Tree.execAll builtins fuel p.statements (.start env) none) := by
  have h := @Tree.execAll_follows builtins fuel p.statements [] (.start env) none
  rwa [List.append_nil] at h

/-- The machine of a program comes to the end that the run with enough fuel comes to. -/
theorem ends_iff_execAll {x : Except Halt Progress} : (p.machine env).Ends builtins x ↔
    (∃ fuel, Tree.execAll builtins fuel p.statements (.start env) none = x)
      ∧ ∀ s, x ≠ .error ⟨.error .outOfFuel, s⟩ := by
  constructor
  · rintro ⟨n, hn⟩
    refine ⟨⟨n + 1, ?_⟩, ?_⟩
    · obtain hends | ⟨k, m, hle, hk, htasks, -⟩ := (machine_follows builtins (n + 1) env p).ends
      · exact hends.unique ⟨n, hn⟩
      · -- more than `n` steps have been made, so there is nothing left to do
        obtain ⟨d, rfl⟩ := Nat.exists_eq_add_of_le (Nat.le_of_lt hle)
        rw [Machine.after_of_end hn] at hk
        obtain ⟨reached, rfl, rfl⟩ := map_eq_ok.mp hk
        exact absurd rfl htasks
    · rintro s rfl
      obtain ⟨k, m, -, hat⟩ := Machine.exists_of_after_eq_error hn
      exact hat.2 rfl
  · rintro ⟨⟨fuel, rfl⟩, hfuel⟩
    obtain hends | ⟨n, m, -, -, -, hout⟩ := (machine_follows builtins fuel env p).ends
    · exact hends
    · exact absurd hout (hfuel _)

/-- The run of a program returns what its machine ends with. -/
theorem returns_iff_ends {r : RunResult} :
    p.Returns builtins env r ↔ ∃ x, (p.machine env).Ends builtins x ∧ resultOf x = .ok r := by
  constructor
  · rintro ⟨fuel, h⟩
    rw [run_eq_resultOf] at h
    refine ⟨_, ends_iff_execAll.mpr ⟨⟨fuel, rfl⟩, ?_⟩, h⟩
    intro s hs
    rw [hs] at h
    cases h
  · rintro ⟨x, hx, hr⟩
    obtain ⟨⟨fuel, rfl⟩, -⟩ := ends_iff_execAll.mp hx
    exact ⟨fuel, by rw [run_eq_resultOf, hr]⟩

/-- A run is in the state that it ends in. -/
theorem passes_of_ends {reached : Progress} (h : (p.machine env).Ends builtins (.ok reached)) :
    p.Passes builtins env reached.state := by
  obtain ⟨n, hn⟩ := h
  exact ⟨n, _, hn, rfl⟩

/-- A run is in the state that it halts in. -/
theorem passes_of_halts {h : Halt} (hends : (p.machine env).Ends builtins (.error h)) :
    p.Passes builtins env h.state := by
  obtain ⟨n, hn⟩ := hends
  obtain ⟨k, m, hk, hat⟩ := Machine.exists_of_after_eq_error hn
  exact ⟨k, m, hk, hat.1.symm⟩

/-- A run that returns is in a state that has the output and the environment of its result. -/
theorem passes_of_returns {r : RunResult} (h : p.Returns builtins env r) :
    ∃ s, p.Passes builtins env s ∧ s.output = r.output ∧ s.environment = r.environment := by
  obtain ⟨x, hx, hr⟩ := returns_iff_ends.mp h
  match x, hr with
  | .ok ⟨s, value⟩, rfl => exact ⟨s, passes_of_ends hx, rfl, rfl⟩
  | .error ⟨.ok d, s⟩, rfl => exact ⟨s, passes_of_halts hx, rfl, rfl⟩

end Program

end Plume
