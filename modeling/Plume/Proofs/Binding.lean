import Plume.Proofs.Provenance
import Plume.Proofs.Stepping

/-!
# What a run binds

A name is bound where it is the target of an assignment or the iterator of a loop, and no binding is
ever taken back. So a run leaves every other name as it was, keeps all names bound that were bound
before, and finds a name unbound only if it was unbound at first (`Program.frame_of_returns`).

## Shape of the proof

`Task.step_stepOf` says once what a step can do: it leaves the environment alone or makes one
binding that the tree calls for (`Tree.Binds`), and its value is that of an expression of the tree.
What such bindings keep is then kept by whole runs, ended or not (`Program.environment_induction`).
-/

namespace Plume

/-! ## Bindings of a tree -/

namespace Tree

variable {builtins : Builtins} {env : Environment} {n t c : Tree}

theorem IsNode.of_part (h : IsNode n t) (hc : c ∈ n.parts) : IsNode c t :=
  IsNode.trans (.part hc .self) h

/-- The list of nodes of a tree holds all of them. -/
theorem IsNode.mem_nodes (h : IsNode n t) : n ∈ t.nodes := by
  induction h with
  | self => exact Tree.mem_nodes.mpr (.inl rfl)
  | part hpart _ ih => exact nodes_subset_of_part hpart ih

/-- The name that a node binds. -/
def boundName? : Tree → Option Text
  | .assign _ target _ => some target.name
  | .forRange _ iterator _ _ _ => some iterator.name
  | _ => none

/-- The names that are the target of an assignment or the iterator of a loop somewhere in a tree. -/
def binds (t : Tree) : List Text := t.nodes.filterMap boundName?

/-- The bindings that the nodes of a tree make in an environment. -/
inductive Binds (builtins : Builtins) (t : Tree) (env : Environment) : Text → Value → Prop
  | assign {span : Span} {target : Ident} {value : Tree} {v : Value} :
      IsNode (.assign span target value) t → value.eval builtins env = .ok v →
        Binds builtins t env target.name v
  | iterator {span : Span} {iterator : Ident} {first stop body : Tree} (i : Int) :
      IsNode (.forRange span iterator first stop body) t →
        Binds builtins t env iterator.name (.int i)

/-- What a statement can bind is a name that is bound in the source. -/
theorem Binds.mem_binds {x : Text} {v : Value} (h : Binds builtins t env x v) : x ∈ t.binds := by
  cases h with
  | assign hn _ => exact List.mem_filterMap.mpr ⟨_, hn.mem_nodes, rfl⟩
  | iterator i hn => exact List.mem_filterMap.mpr ⟨_, hn.mem_nodes, rfl⟩

end Tree

/-! ## Steps -/

/-- A task that may be left to do in a run of a tree. -/
inductive Task.Within (t : Tree) : Task → Prop
  | run {n : Tree} : Tree.IsNode n t → Within t (.run n)
  | rounds {span : Span} {iterator : Ident} {first stop body : Tree} (count : Nat) (i : Int) :
      Tree.IsNode (.forRange span iterator first stop body) t →
        Within t (.rounds iterator body count i)
  | forget : Within t .forget

/-- What a step leads to in a run of a tree, from the given environment. -/
structure Machine.StepOf (builtins : Builtins) (t : Tree) (env : Environment) (m : Machine) :
    Prop where
  tasks : ∀ task ∈ m.tasks, task.Within t
  environment : m.reached.state.environment = env
    ∨ ∃ x v, t.Binds builtins env x v ∧ m.reached.state.environment = env.insert x v
  value : ∀ v, m.reached.value = some v → ∃ e, Tree.IsNode e t ∧ e.eval builtins env = .ok v

/-- A step that binds nothing and has no value. -/
theorem Machine.StepOf.of_tasks {builtins : Builtins} {t : Tree} {tasks : List Task}
    (htasks : ∀ task ∈ tasks, task.Within t) (s : State) :
    StepOf builtins t s.environment ⟨tasks, ⟨s, none⟩⟩ where
  tasks := htasks
  environment := .inl rfl
  value := by rintro v ⟨⟩

/-- The one step of an expression. -/
theorem Task.step_of_isStatement_eq_false {builtins : Builtins} {e : Tree}
    (he : e.isStatement = false) (s : State) :
    (Task.run e).step builtins s = (s.eval builtins e).map fun v => ⟨[], ⟨s, some v⟩⟩ := by
  cases e <;> first | rfl | cases he

/-- What a step can do. -/
theorem Task.step_stepOf {builtins : Builtins} {t : Tree} {s : State} {m : Machine} {task : Task}
    (htask : task.Within t) (h : task.step builtins s = .ok m) :
    m.StepOf builtins t s.environment := by
  cases htask with
  | forget =>
    cases h
    exact .of_tasks (by simp) s
  | @rounds span iterator first stop body count i hn =>
    cases count with
    | zero =>
      cases h
      exact .of_tasks (by simp) s
    -- a round binds the iterator, and leaves the body and the other rounds to do
    | succ count =>
      cases h
      have hbody := hn.of_part (c := body) (by simp [Tree.parts])
      refine ⟨?_, .inr ⟨_, _, .iterator i hn, rfl⟩, by rintro v ⟨⟩⟩
      simpa using ⟨Within.run hbody, Within.rounds count (i + 1) hn⟩
  | @run n hn =>
    cases n with
    | block span statements =>
      cases h
      refine .of_tasks (fun task htask => ?_) s
      obtain hrun | rfl : task ∈ statements.map .run ∨ task = .forget := by simpa using htask
      · obtain ⟨c, hc, rfl⟩ := List.mem_map.mp hrun
        exact .run (hn.of_part hc)
      · exact .forget
    -- the only other step that binds a name
    | assign span target value =>
      obtain ⟨v, hv, rfl⟩ := map_eq_ok.mp h
      have hvalue := State.eval_eq_ok.mp hv
      refine ⟨by simp, .inr ⟨_, _, .assign hn hvalue, rfl⟩, ?_⟩
      rintro v ⟨⟩
      exact ⟨value, hn.of_part (by simp [Tree.parts]), hvalue⟩
    -- a condition chooses what is left to do, and changes nothing
    | ifThen span condition body =>
      obtain ⟨holds, -, rfl⟩ := map_eq_ok.mp h
      refine .of_tasks ?_ s
      have hbody := hn.of_part (c := body) (by simp [Tree.parts])
      cases holds with
      | true => simpa using ⟨Within.run hbody, Within.forget⟩
      | false => simp
    | ifElse span condition body otherwise =>
      obtain ⟨holds, -, rfl⟩ := map_eq_ok.mp h
      refine .of_tasks ?_ s
      have hbody := hn.of_part (c := body) (by simp [Tree.parts])
      have hotherwise := hn.of_part (c := otherwise) (by simp [Tree.parts])
      cases holds with
      | true => simpa using ⟨Within.run hbody, Within.forget⟩
      | false => simpa using ⟨Within.run hotherwise, Within.forget⟩
    | forRange span iterator first stop body =>
      obtain ⟨range, -, rfl⟩ := map_eq_ok.mp h
      refine .of_tasks ?_ s
      simpa using Within.rounds _ _ hn
    -- a loop that goes on is left to do again behind its body
    | whileLoop span condition body =>
      obtain ⟨holds, -, rfl⟩ := map_eq_ok.mp h
      refine .of_tasks ?_ s
      have hbody := hn.of_part (c := body) (by simp [Tree.parts])
      cases holds with
      | true => simpa using ⟨Within.run hbody, Within.run hn⟩
      | false => simp
    | print span argument =>
      obtain ⟨v, hv, rfl⟩ := map_eq_ok.mp h
      exact ⟨by simp, .inl rfl, by rintro v ⟨⟩⟩
    | number span value | boolean span value | string span value | reference span name
    | binary span op left right | list span items | call span callee arguments =>
      rw [Task.step_of_isStatement_eq_false rfl] at h
      obtain ⟨v, hv, rfl⟩ := map_eq_ok.mp h
      refine ⟨by simp, .inl rfl, ?_⟩
      rintro v ⟨⟩
      exact ⟨_, hn, State.eval_eq_ok.mp hv⟩

/-- The same for the first of many tasks. A machine with nothing to do stays as it is. -/
theorem Machine.stepOf_of_step {builtins : Builtins} {t : Tree} {m m' : Machine}
    (htasks : ∀ task ∈ m.tasks, task.Within t) (h : m.step builtins = .ok m') :
    m' = m ∨ m'.StepOf builtins t m.reached.state.environment := by
  obtain ⟨tasks, reached⟩ := m
  cases tasks with
  | nil =>
    cases h
    exact .inl rfl
  | cons task rest =>
    obtain ⟨htask, hrest⟩ := List.forall_mem_cons.mp htasks
    obtain ⟨m, hm, rfl⟩ := map_eq_ok.mp h
    have hstep := Task.step_stepOf htask hm
    exact .inr ⟨List.forall_mem_append.mpr ⟨hstep.tasks, hrest⟩, hstep.environment, hstep.value⟩

/-! ## Runs -/

namespace Program

variable {p : Program} {builtins : Builtins} {env : Environment} {s : State} {n : Nat}
  {m m' : Machine}

/-- All that is ever left to do in a run is found in its program. -/
theorem within_of_after (h : (p.machine env).after builtins n = .ok m) :
    ∀ task ∈ m.tasks, task.Within p.toTree := by
  refine Machine.after_induction (I := fun m => ∀ task ∈ m.tasks, task.Within p.toTree) ?_ ?_ h
  · intro task htask
    obtain ⟨t, ht, rfl⟩ := List.mem_map.mp htask
    exact .run (.part (t := p.toTree) ht .self)
  · intro n m m' _ hm hstep
    obtain rfl | hstepOf := Machine.stepOf_of_step hm hstep
    · exact hm
    · exact hstepOf.tasks

/-- What holds of an environment, and goes on to hold whatever binding of the program is made, holds
at every moment of a run. -/
theorem environment_induction {I : Environment → Prop} (hstart : I env)
    (hbind : ∀ e x v, I e → p.toTree.Binds builtins e x v → I (e.insert x v))
    (h : p.Passes builtins env s) : I s.environment := by
  obtain ⟨n, m, hm, rfl⟩ := h
  refine Machine.after_induction (I := fun m => I m.reached.state.environment) hstart ?_ hm
  intro n m m' hn hm hstep
  obtain rfl | hstepOf := Machine.stepOf_of_step (within_of_after hn) hstep
  · exact hm
  · obtain hsame | ⟨x, v, hbinds, hinsert⟩ := hstepOf.environment
    · exact hsame ▸ hm
    · exact hinsert ▸ hbind _ x v hm hbinds

/-- The value that a run returns is that of an expression of the program at some moment. -/
theorem exists_eval_of_returns {r : RunResult} {v : Value} (h : p.Returns builtins env r)
    (hv : r.value = some v) :
    ∃ s e, p.Passes builtins env s ∧ Tree.IsNode e p.toTree
      ∧ e.eval builtins s.environment = .ok v := by
  obtain ⟨x, ⟨n, hn⟩, hr⟩ := returns_iff_ends.mp h
  match x, hr with
  | .error ⟨.ok d, s⟩, rfl => cases hv
  | .ok ⟨s, value⟩, rfl =>
    refine Machine.after_induction
      (I := fun m => m.reached.value = some v → ∃ s e, p.Passes builtins env s
        ∧ Tree.IsNode e p.toTree ∧ e.eval builtins s.environment = .ok v) ?_ ?_ hn hv
    · rintro ⟨⟩
    · intro n m m' hn hm hstep hvalue
      obtain rfl | hstepOf := Machine.stepOf_of_step (within_of_after hn) hstep
      · exact hm hvalue
      · obtain ⟨e, he, heval⟩ := hstepOf.value v hvalue
        exact ⟨m.reached.state, e, ⟨n, m, hn, rfl⟩, he, heval⟩

/-- A name that the program does not bind keeps its binding, or goes on to have none. -/
theorem get?_of_passes (h : p.Passes builtins env s) {x : Text} (hx : x ∉ p.toTree.binds) :
    s.environment.get? x = env.get? x := by
  refine environment_induction (I := fun e => e.get? x = env.get? x) rfl ?_ h
  intro e y v he hbinds
  have hne : x ≠ y := fun hxy => hx (hxy ▸ hbinds.mem_binds)
  rw [Environment.get?_insert, if_neg hne, he]

/-- No binding is taken back. -/
theorem get?_ne_none_of_passes (h : p.Passes builtins env s) {x : Text} (hx : env.get? x ≠ none) :
    s.environment.get? x ≠ none := by
  refine environment_induction (I := fun e => e.get? x ≠ none) hx ?_ h
  intro e y v he _
  rw [Environment.get?_insert]
  split
  · exact Option.some_ne_none v
  · exact he

/-- A name that is unbound at some moment was unbound before the run. -/
theorem get?_eq_none_of_passes (h : p.Passes builtins env s) {x : Text}
    (hx : s.environment.get? x = none) : env.get? x = none := by
  cases henv : env.get? x with
  | none => rfl
  | some v =>
    have hbound : env.get? x ≠ none := by simp [henv]
    exact absurd hx (get?_ne_none_of_passes h hbound)

end Program

/-! ## Names that are not found -/

namespace Tree

variable {builtins : Builtins} {env : Environment} {t : Tree}

/-- A name that a node of a tree asks for at a position is missing: it is read and not bound, or
called and no function. -/
inductive Misses (builtins : Builtins) (env : Environment) (t : Tree) (x : Text) : Position → Prop
  | reference {span : Span} : IsNode (.reference span x) t → env.get? x = none →
      Misses builtins env t x span.start
  | callee {span : Span} {callee : Ident} {arguments : List Tree} :
      IsNode (.call span callee arguments) t → callee.name = x → builtins.get? x = none →
        Misses builtins env t x span.start

/-- A name that is missing is missing where fewer names are bound. -/
theorem Misses.mono {env' : Environment} {x : Text} {position : Position}
    (h : t.Misses builtins env x position) (henv : env.get? x = none → env'.get? x = none) :
    t.Misses builtins env' x position := by
  cases h with
  | reference hn hnone => exact .reference hn (henv hnone)
  | callee hn hname hnone => exact .callee hn hname hnone

/-- A node that stops for a name misses it. -/
theorem StopsWithin.misses {d : Diagnostic} (h : StopsWithin builtins env t (.problem d))
    (hkind : d.problem.kind = .name) :
    ∃ x, d.problem = .undefinedName x ∧ t.Misses builtins env x d.position := by
  obtain ⟨n, hn, hstop⟩ := h
  generalize hcause : Stop.problem d = stop at hstop
  cases hstop with
  | reference span hnone =>
    cases hcause
    exact ⟨_, rfl, .reference hn hnone⟩
  | callee span arguments hnone =>
    cases hcause
    exact ⟨_, rfl, .callee hn rfl hnone⟩
  | arity span hf hne =>
    cases hcause
    cases hkind
  | @binary span op left right a b stop ha hb hoperate =>
    cases stop with
    | fault f => cases hcause
    | problem problem =>
      cases hcause
      -- no operator looks a name up
      have hmeets : op.CanMeet problem := Value.operate_explained op a b _ hoperate
      cases hmeets <;> cases hkind
  | statement hstatement => cases hcause

/-- A run that halts for a name has come to a place that misses it. -/
theorem HaltsWithin.misses {d : Diagnostic} {s : State} (h : HaltsWithin builtins t ⟨.ok d, s⟩)
    (hkind : d.problem.kind = .name) :
    ∃ x, d.problem = .undefinedName x ∧ t.Misses builtins s.environment x d.position := by
  generalize hhalt : (⟨.ok d, s⟩ : Halt) = halt at h
  cases h with
  | outOfFuel s => cases hhalt
  | @expression s stop hstop =>
    cases stop with
    | fault f => cases hhalt
    | problem d =>
      cases hhalt
      exact hstop.misses hkind
  | bound hn he hv hnone =>
    cases hhalt
    cases hkind

end Tree

namespace Program

variable {p : Program} {builtins : Builtins} {env : Environment} {r : RunResult}

/-- A name that is reported as undefined was missing before the run. -/
theorem misses_of_returns (h : p.Returns builtins env r) {d : Diagnostic} (hd : r.error = some d)
    (hkind : d.problem.kind = .name) :
    ∃ x, d.problem = .undefinedName x ∧ p.toTree.Misses builtins env x d.position := by
  obtain ⟨x, hends, hr⟩ := returns_iff_ends.mp h
  match x, hr with
  | .ok reached, rfl => cases hd
  | .error ⟨.ok d, s⟩, rfl =>
    cases hd
    obtain ⟨⟨fuel, hexec⟩, -⟩ := ends_iff_execAll.mp hends
    obtain ⟨x, hx, hmisses⟩ := (haltsWithin hexec).misses hkind
    exact ⟨x, hx, hmisses.mono (get?_eq_none_of_passes (passes_of_halts hends))⟩

/-- A run that returns, with a diagnostic or without, leaves every name alone that its program does
not bind, and no name that was bound is unbound after it. A name is reported as undefined only if it
was not bound before the run or is called and no function; at no moment does reading a name fail
that was bound before the run. -/
theorem frame_of_returns (h : p.Returns builtins env r) :
    (∀ x ∉ p.toTree.binds, r.environment.get? x = env.get? x)
      ∧ (∀ x, env.get? x ≠ none → r.environment.get? x ≠ none)
      ∧ (∀ d, r.error = some d → d.problem.kind = .name →
        ∃ x, d.problem = .undefinedName x ∧ p.toTree.Misses builtins env x d.position)
      ∧ ∀ s, p.Passes builtins env s → ∀ span x stop,
        (Tree.reference span x).eval builtins s.environment = .error stop → env.get? x = none := by
  obtain ⟨s, hs, -, henvironment⟩ := passes_of_returns h
  rw [← henvironment]
  refine ⟨?_, ?_, ?_, ?_⟩
  · intro x hx
    exact get?_of_passes hs hx
  · intro x hx
    exact get?_ne_none_of_passes hs hx
  · intro d hd hkind
    exact misses_of_returns h hd hkind
  -- a reference stops only where the name has no value, and no name loses its value on the way
  · intro s hs span x stop hstop
    refine get?_eq_none_of_passes hs ?_
    rw [Tree.eval] at hstop
    split at hstop
    · cases hstop
    next hnone => exact hnone

/-- `x = n` and then `for i in range(0, n)` around `x = i; print(y)`. -/
def readsUnbound : Program :=
  let here (line column : Nat) : Span := ⟨⟨line, column⟩, ⟨line, column⟩⟩
  ⟨here 1 1, [.assign (here 1 1) ⟨here 1 1, "x"⟩ (.reference (here 1 5) "n"),
    .forRange (here 2 1) ⟨here 2 5, "i"⟩ (.number (here 2 16) (.int 0)) (.reference (here 2 19) "n")
      (.block (here 3 3) [.assign (here 3 3) ⟨here 3 3, "x"⟩ (.reference (here 3 7) "i"),
        .print (here 3 10) (.reference (here 3 16) "y")])]⟩

theorem frame_of_returns_readsUnbound : ∃ r : RunResult,
    readsUnbound.Returns .standard (.ofList [("n", .int 2)]) r
      ∧ r.error = some ⟨.undefinedName "y", ⟨3, 16⟩⟩
      ∧ ("n" : Text) ∉ readsUnbound.toTree.binds
      ∧ r.environment.get? "n" = some (.int 2)
      ∧ readsUnbound.toTree.Misses .standard (.ofList [("n", .int 2)]) "y" ⟨3, 16⟩ := by
  have hreturns : readsUnbound.Returns .standard (.ofList [("n", .int 2)]) _ := ⟨0, rfl⟩
  obtain ⟨hframe, -, hmisses, -⟩ := frame_of_returns hreturns
  have hn : ("n" : Text) ∉ readsUnbound.toTree.binds := by decide +kernel
  obtain ⟨x, hx, hmissing⟩ := hmisses _ rfl rfl
  cases hx
  exact ⟨_, hreturns, rfl, hn, hframe _ hn, hmissing⟩

end Program

end Plume
