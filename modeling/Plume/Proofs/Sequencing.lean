import Plume.Proofs.Lockstep

/-!
# Programs one after another

A program may be cut anywhere between its statements: running the parts one after another in one
environment, up to the first that meets a problem, is running the whole (`run_append`, and
`returns_append_iff` for runs that return).

## Shape of the proof

The second part of a run starts in a state that has printed something already, and with a value at
hand. Neither matters: printed texts are only added to (`lockstep_behind`), and a value is replaced
by the next statement (`execAll_of_ne_nil`). More fuel changes no run that has returned
(`Program.run_mono`), so parts that return with some fuel return with the same fuel.
-/

namespace Plume

/-! ## Results -/

/-- The result of a run that has come to the given end. -/
def resultOf : Except Halt Progress → Except Abort RunResult
  | .ok ⟨s, value⟩ => .ok ⟨s.output, none, s.environment, value⟩
  | .error ⟨.ok d, s⟩ => .ok ⟨s.output, some d, s.environment, none⟩
  | .error ⟨.error a, _⟩ => .error a

/-- The result of a run is read off from where its statements have led. -/
theorem Program.run_eq_resultOf (fuel : Nat) (builtins : Builtins) (env : Environment)
    (p : Program) :
    p.run fuel builtins env
      = resultOf (Tree.execAll builtins fuel p.statements (.start env) none) := by
  rw [Program.run]
  rcases Tree.execAll builtins fuel p.statements (.start env) none with ⟨_ | _, _⟩ | ⟨_, _⟩ <;> rfl

/-- A run that returns has gone through all statements, or has met a problem and has no value. -/
theorem Program.run_eq_ok {p : Program} {fuel : Nat} {builtins : Builtins} {env : Environment}
    {r : RunResult} (h : p.run fuel builtins env = .ok r) :
    (∃ reached, Tree.execAll builtins fuel p.statements (.start env) none = .ok reached
        ∧ r = ⟨reached.state.output, none, reached.state.environment, reached.value⟩)
      ∨ ∃ d s, Tree.execAll builtins fuel p.statements (.start env) none = .error ⟨.ok d, s⟩
        ∧ r = ⟨s.output, some d, s.environment, none⟩ := by
  unfold Program.run at h
  split at h
  next s value hexec => exact .inl ⟨⟨s, value⟩, hexec, (Except.ok.inj h).symm⟩
  next d s hexec => exact .inr ⟨d, s, hexec, (Except.ok.inj h).symm⟩
  · cases h

/-- The result of a run after that of another: the outputs stand behind each other. A run of no
statements has no value of its own. -/
def RunResult.followedBy (r₁ : RunResult) (statements : List Tree) (r₂ : RunResult) : RunResult :=
  { r₂ with
    output := r₁.output ++ r₂.output
    value := if statements.isEmpty then r₁.value else r₂.value }

/-- The result with a text in front of its output. -/
def RunResult.behind (earlier : Text) (r : RunResult) : RunResult :=
  { r with output := earlier ++ r.output }

/-- Two runs of the same statements in lockstep and with the same fuel abort together, or return the
same error and value from related states. -/
theorem resultOf_execAll_agree {shared : Tree → Prop} {builtins builtins' : Builtins}
    {R : State → State → Prop} (h : LockstepOn shared builtins builtins' R) (fuel : Nat)
    {ts : List Tree} (hts : ∀ t ∈ ts, shared t) (value : Option Value) {s s' : State}
    (hs : R s s') :
    (∃ abort, resultOf (Tree.execAll builtins fuel ts s value) = .error abort
        ∧ resultOf (Tree.execAll builtins' fuel ts s' value) = .error abort)
      ∨ ∃ t t' error last, R t t'
        ∧ resultOf (Tree.execAll builtins fuel ts s value)
          = .ok ⟨t.output, error, t.environment, last⟩
        ∧ resultOf (Tree.execAll builtins' fuel ts s' value)
          = .ok ⟨t'.output, error, t'.environment, last⟩ := by
  have hagree := Tree.execAll_agree h (Nat.le_refl fuel) ts s s' value hts hs
  -- the other way round the two runs agree as well, so that they run out of fuel together
  have hback := Tree.execAll_agree h.flip (Nat.le_refl fuel) ts s' s value hts hs
  generalize Tree.execAll builtins fuel ts s value = x at hagree hback ⊢
  generalize Tree.execAll builtins' fuel ts s' value = x' at hagree hback ⊢
  cases hagree with
  | @ok a a' ha =>
    obtain ⟨t, last⟩ := a
    obtain ⟨t', last'⟩ := a'
    obtain ⟨ht, rfl⟩ : R t t' ∧ last = last' := ha
    exact .inr ⟨t, t', none, last, ht, rfl, rfl⟩
  | @halt cause t t' ht =>
    cases cause with
    | error abort => exact .inl ⟨abort, rfl, rfl⟩
    | ok d => exact .inr ⟨t, t', some d, none, ht, rfl, rfl⟩
  | outOfFuel t x' =>
    cases hback with
    | halt cause ht => exact .inl ⟨.outOfFuel, rfl, rfl⟩
    | outOfFuel t' x => exact .inl ⟨.outOfFuel, rfl, rfl⟩

/-! ## Fuel -/

variable {builtins : Builtins} {env : Environment} {fuel fuel' : Nat} {r r' : RunResult}

/-- A state is in lockstep with itself. -/
theorem lockstep_eq (builtins : Builtins) : Lockstep builtins Eq where
  eval := by
    rintro s _ rfl e
    rfl
  bind := by
    rintro s _ rfl name value
    rfl
  print := by
    rintro s _ rfl value
    rfl

/-- A run that has come to an end comes to the same end with more fuel. -/
theorem Program.run_eq_of_le {p : Program} (hfuel : fuel ≤ fuel')
    (h : p.run fuel builtins env ≠ .error .outOfFuel) :
    p.run fuel' builtins env = p.run fuel builtins env := by
  -- the two runs are in lockstep, from the same state
  have hagree := Tree.execAll_agree (lockstep_eq builtins).on hfuel p.statements _ _ none
    (fun _ _ => trivial) (Eq.refl (State.start env))
  rw [Program.run_eq_resultOf] at h
  rw [Program.run_eq_resultOf, Program.run_eq_resultOf]
  generalize Tree.execAll builtins fuel p.statements (.start env) none = x at hagree h ⊢
  generalize Tree.execAll builtins fuel' p.statements (.start env) none = x' at hagree ⊢
  cases hagree with
  | @ok a a' ha =>
    obtain ⟨s, value⟩ := a
    obtain ⟨s', value'⟩ := a'
    obtain ⟨rfl, rfl⟩ : s = s' ∧ value = value' := ha
    rfl
  | halt cause hs =>
    subst hs
    rfl
  | outOfFuel s x' => exact absurd rfl h

/-- A run that has returned returns the same with more fuel. -/
theorem Program.run_mono {p : Program} (hfuel : fuel ≤ fuel')
    (h : p.run fuel builtins env = .ok r) : p.run fuel' builtins env = .ok r := by
  have hended : p.run fuel builtins env ≠ .error .outOfFuel := by
    rw [h]
    rintro ⟨⟩
  rw [Program.run_eq_of_le hfuel hended, h]

/-- The run of a program returns with the given result: some amount of fuel is enough for it. -/
def Program.Returns (builtins : Builtins) (env : Environment) (p : Program) (r : RunResult) :
    Prop :=
  ∃ fuel, p.run fuel builtins env = .ok r

/-- A run returns no more than one result. -/
theorem Program.Returns.unique {p : Program} (h : p.Returns builtins env r)
    (h' : p.Returns builtins env r') : r = r' := by
  obtain ⟨fuel, h⟩ := h
  obtain ⟨fuel', h'⟩ := h'
  have hmax := Program.run_mono (Nat.le_max_left fuel fuel') h
  have hmax' := Program.run_mono (Nat.le_max_right fuel fuel') h'
  exact Except.ok.inj (hmax.symm.trans hmax')

/-! ## What has been printed before -/

/-- The second state is the first with the texts `earlier` printed before all others. -/
def Behind (earlier : Array Text) (s s' : State) : Prop :=
  s' = ⟨s.environment, earlier ++ s.printed⟩

/-- A state is in lockstep with one that has printed something before. -/
theorem lockstep_behind (builtins : Builtins) (earlier : Array Text) :
    Lockstep builtins (Behind earlier) where
  eval := by
    rintro s _ rfl e
    rfl
  bind := by
    rintro s _ rfl name value
    rfl
  print := by
    rintro s _ rfl value
    simp [Behind, State.print]

/-- A run behind others prints behind them. -/
theorem output_of_behind {earlier : Array Text} {s s' : State} (h : Behind earlier s s') :
    s'.output = earlier.toList.flatten ++ s.output := by
  rw [h, State.output, State.output, Array.toList_append, List.flatten_append]

/-- A run behind others leaves the same variables. -/
theorem environment_of_behind {earlier : Array Text} {s s' : State} (h : Behind earlier s s') :
    s'.environment = s.environment := by
  rw [h]

/-- What has been printed before a run stands in front of its output, and changes nothing else. -/
theorem resultOf_execAll_behind (ts : List Tree) (value : Option Value) {earlier : Array Text}
    {s s' : State} (hs : Behind earlier s s') :
    resultOf (Tree.execAll builtins fuel ts s' value)
      = (resultOf (Tree.execAll builtins fuel ts s value)).map
          (RunResult.behind earlier.toList.flatten) := by
  obtain ⟨abort, h, h'⟩ | ⟨t, t', error, last, ht, h, h'⟩ :=
    resultOf_execAll_agree (lockstep_behind builtins earlier).on fuel (fun _ _ => trivial) value hs
  · rw [h, h']
    rfl
  · rw [h, h', output_of_behind ht, environment_of_behind ht]
    rfl

/-! ## Two programs -/

/-- A computation in two steps succeeds if both of them do. -/
theorem bind_eq_ok {ε α β : Type} {x : Except ε α} {f : α → Except ε β} {b : β} :
    x >>= f = .ok b ↔ ∃ a, x = .ok a ∧ f a = .ok b := by
  cases x with
  | error e =>
    constructor
    · rintro ⟨⟩
    · rintro ⟨a, ⟨⟩, -⟩
  | ok a =>
    constructor
    · exact fun h => ⟨a, rfl, h⟩
    · rintro ⟨_, ⟨⟩, h⟩
      exact h

/-- A value that is made of another comes of one. -/
theorem map_eq_ok {ε α β : Type} {x : Except ε α} {f : α → β} {b : β} :
    x.map f = .ok b ↔ ∃ a, x = .ok a ∧ f a = b := by
  cases x with
  | error e =>
    constructor
    · rintro ⟨⟩
    · rintro ⟨a, ⟨⟩, -⟩
  | ok a =>
    constructor
    · exact fun h => ⟨a, rfl, Except.ok.inj h⟩
    · rintro ⟨_, ⟨⟩, rfl⟩
      rfl

/-- Telling failures in other words changes no success. -/
theorem mapError_eq_ok {ε ε' α : Type} {x : Except ε α} {g : ε → ε'} {a : α} :
    x.mapError g = .ok a ↔ x = .ok a := by
  cases x with
  | error e =>
    constructor
    · rintro ⟨⟩
    · rintro ⟨⟩
  | ok b =>
    constructor
    · exact fun h => congrArg Except.ok (Except.ok.inj h)
    · rintro ⟨⟩
      rfl

/-- Statements are run in two parts, one after the other. -/
theorem execAll_append (first second : List Tree) (s : State) (value : Option Value) :
    Tree.execAll builtins fuel (first ++ second) s value = (do
      let reached ← Tree.execAll builtins fuel first s value
      Tree.execAll builtins fuel second reached.state reached.value) := by
  induction first generalizing s value with
  | nil =>
    rw [List.nil_append, Tree.execAll]
    rfl
  | cons t rest ih =>
    rw [List.cons_append, Tree.execAll, Tree.execAll]
    simp only [ih, bind_assoc]

/-- A statement makes its own value, whatever value was at hand. -/
theorem execAll_of_ne_nil {ts : List Tree} (h : ts ≠ []) (s : State) (value : Option Value) :
    Tree.execAll builtins fuel ts s value = Tree.execAll builtins fuel ts s none := by
  cases ts with
  | nil => exact absurd rfl h
  | cons t rest => rw [Tree.execAll, Tree.execAll]

/-- Statements go on from a state as a program of their own would, behind what led there. -/
theorem resultOf_execAll_from (ts : List Tree) (s : State) (value : Option Value) :
    resultOf (Tree.execAll builtins fuel ts s value)
      = (resultOf (Tree.execAll builtins fuel ts (.start s.environment) none)).map
          (RunResult.followedBy ⟨s.output, none, s.environment, value⟩ ts) := by
  cases ts with
  | nil =>
    simp [Tree.execAll, resultOf, Except.map, RunResult.followedBy, State.start, State.output]
  | cons t rest =>
    have hs : Behind s.printed (.start s.environment) s := by simp [Behind, State.start]
    rw [execAll_of_ne_nil (List.cons_ne_nil t rest), resultOf_execAll_behind (t :: rest) none hs]
    rfl

/-- Running statements behind others is running them where the others have got to, unless these have
met a problem. -/
theorem run_append (span span₁ span₂ : Span) (first second : List Tree) :
    Program.run fuel builtins env ⟨span, first ++ second⟩ = (do
      let r₁ ← Program.run fuel builtins env ⟨span₁, first⟩
      if r₁.error.isSome then return { r₁ with value := none }
      else
        let r₂ ← Program.run fuel builtins r₁.environment ⟨span₂, second⟩
        return r₁.followedBy second r₂) := by
  simp only [Program.run_eq_resultOf, execAll_append]
  rcases Tree.execAll builtins fuel first (.start env) none with ⟨_ | d, s⟩ | ⟨s, value⟩
  · rfl
  · rfl
  · exact resultOf_execAll_from second s value

/-- The same for runs that return, each with fuel of its own. -/
theorem returns_append (span span₁ span₂ : Span) (first second : List Tree) :
    Program.Returns builtins env ⟨span, first ++ second⟩ r ↔
      ∃ r₁, Program.Returns builtins env ⟨span₁, first⟩ r₁ ∧
        (r₁.error ≠ none ∧ r = { r₁ with value := none }
          ∨ r₁.error = none ∧ ∃ r₂, Program.Returns builtins r₁.environment ⟨span₂, second⟩ r₂
            ∧ r = r₁.followedBy second r₂) := by
  constructor
  -- one fuel for the whole is enough for either part
  · rintro ⟨fuel, h⟩
    rw [run_append span span₁ span₂, bind_eq_ok] at h
    obtain ⟨r₁, h₁, h⟩ := h
    refine ⟨r₁, ⟨fuel, h₁⟩, ?_⟩
    split at h
    next herror => exact .inl ⟨Option.isSome_iff_ne_none.mp herror, (Except.ok.inj h).symm⟩
    next herror =>
      rw [bind_eq_ok] at h
      obtain ⟨r₂, h₂, h⟩ := h
      exact .inr ⟨Option.not_isSome_iff_eq_none.mp herror, r₂, ⟨fuel, h₂⟩, (Except.ok.inj h).symm⟩
  · rintro ⟨r₁, ⟨fuel₁, h₁⟩, ⟨herror, rfl⟩ | ⟨herror, r₂, ⟨fuel₂, h₂⟩, rfl⟩⟩
    · refine ⟨fuel₁, ?_⟩
      rw [run_append span span₁ span₂, bind_eq_ok]
      exact ⟨r₁, h₁, if_pos (Option.isSome_iff_ne_none.mpr herror)⟩
    -- and the larger of two is enough for the whole
    · refine ⟨max fuel₁ fuel₂, ?_⟩
      have h₁ := Program.run_mono (Nat.le_max_left fuel₁ fuel₂) h₁
      have h₂ := Program.run_mono (Nat.le_max_right fuel₁ fuel₂) h₂
      rw [run_append span span₁ span₂, bind_eq_ok]
      refine ⟨r₁, h₁, ?_⟩
      rw [if_neg (Option.not_isSome_iff_eq_none.mpr herror), bind_eq_ok]
      exact ⟨r₂, h₂, rfl⟩

/-! ## Many programs -/

/-- Programs run one after another in one environment, up to the first that meets a problem, return
with the given result between them. -/
def ReturnInTurn (builtins : Builtins) : Environment → List Program → RunResult → Prop
  | env, [], r => r = ⟨[], none, env, none⟩
  | env, p :: rest, r =>
    ∃ r₁, p.Returns builtins env r₁ ∧
      (r₁.error ≠ none ∧ r = { r₁ with value := none }
        ∨ r₁.error = none ∧ ∃ r₂, ReturnInTurn builtins r₁.environment rest r₂
          ∧ r = r₁.followedBy (rest.flatMap (·.statements)) r₂)

/-- A program without statements does nothing. -/
theorem returns_nil (span : Span) :
    Program.Returns builtins env ⟨span, []⟩ r ↔ r = ⟨[], none, env, none⟩ := by
  constructor
  · rintro ⟨fuel, h⟩
    exact (Except.ok.inj h).symm
  · rintro rfl
    exact ⟨0, rfl⟩

/-- A program that is put together from others runs them in turn. -/
theorem returns_flatMap (span : Span) (parts : List Program) :
    Program.Returns builtins env ⟨span, parts.flatMap (·.statements)⟩ r
      ↔ ReturnInTurn builtins env parts r := by
  induction parts generalizing env r with
  | nil => exact returns_nil span
  | cons p rest ih =>
    rw [List.flatMap_cons, returns_append span p.span span, ReturnInTurn]
    simp only [ih]

/-- A run of statements behind others returns what the others return if they meet a problem, and
otherwise what the run goes on to return in the environment that they leave. So a program may be run
in parts, one after another in one environment. -/
theorem returns_append_iff (builtins : Builtins) (env : Environment) (r : RunResult) :
    (∀ (span span₁ span₂ : Span) (first second : List Tree),
      Program.Returns builtins env ⟨span, first ++ second⟩ r ↔
        ∃ r₁, Program.Returns builtins env ⟨span₁, first⟩ r₁ ∧
          (r₁.error ≠ none ∧ r = { r₁ with value := none }
            ∨ r₁.error = none ∧ ∃ r₂, Program.Returns builtins r₁.environment ⟨span₂, second⟩ r₂
              ∧ r = r₁.followedBy second r₂))
      ∧ ∀ (span : Span) (parts : List Program),
        Program.Returns builtins env ⟨span, parts.flatMap (·.statements)⟩ r
          ↔ ReturnInTurn builtins env parts r :=
  ⟨returns_append, returns_flatMap⟩

end Plume
