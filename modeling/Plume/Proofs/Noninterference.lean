import Plume.Proofs.Sequencing

/-!
# What a run depends on

A run looks at its environment only where a name is read, and at its functions only where one is
called. So runs from environments that agree on the names that a program reads cannot be told apart
by what they print, report and give, nor by these names afterwards, and functions that are never
called may be replaced (`Program.run_of_agree`).

## Shape of the proof

The value of an expression depends on no more than that by induction on the expression
(`Tree.eval_of_agree`). A binding that two runs make alike keeps their environments in agreement,
whatever its name. The two runs are then in lockstep, loops and branches included.
-/

namespace Plume

variable {builtins builtins' : Builtins} {env env' : Environment} {names : List Text}

/-! ## Agreement on names -/

/-- Environments that bind the given names alike, or not at all. -/
def Environment.SameOn (names : List Text) (env env' : Environment) : Prop :=
  ∀ x ∈ names, env.get? x = env'.get? x

/-- Functions that are the same under the given names, or missing from both. -/
def Builtins.SameOn (names : List Text) (builtins builtins' : Builtins) : Prop :=
  ∀ f ∈ names, builtins.get? f = builtins'.get? f

/-- A binding that is made in both keeps two environments in agreement, whatever its name. -/
theorem Environment.SameOn.insert (h : env.SameOn names env') (name : Text) (value : Value) :
    (env.insert name value).SameOn names (env'.insert name value) := by
  intro x hx
  rw [get?_insert, get?_insert, h x hx]

/-- A name that does not count may be bound to anything. -/
theorem Environment.sameOn_insert {name : Text} (hname : name ∉ names) (env : Environment)
    (value : Value) : env.SameOn names (env.insert name value) := by
  intro x hx
  have hne : x ≠ name := fun h => hname (h ▸ hx)
  rw [get?_insert, if_neg hne]

/-! ## Names in a tree -/

namespace Tree

/-- The name that a node reads. -/
def readName? : Tree → Option Text
  | .reference _ name => some name
  | _ => none

/-- The name of the function that a node calls. -/
def calledName? : Tree → Option Text
  | .call _ callee _ => some callee.name
  | _ => none

/-- The names that are read somewhere in a tree. -/
def reads (t : Tree) : List Text := t.nodes.filterMap readName?

/-- The names of the functions that are called somewhere in a tree. -/
def calls (t : Tree) : List Text := t.nodes.filterMap calledName?

variable {t c : Tree}

theorem reads_subset_of_part (h : c ∈ t.parts) : c.reads ⊆ t.reads :=
  List.filterMap_subset _ (nodes_subset_of_part h)

theorem calls_subset_of_part (h : c ∈ t.parts) : c.calls ⊆ t.calls :=
  List.filterMap_subset _ (nodes_subset_of_part h)

theorem mem_reads_reference (span : Span) (name : Text) :
    name ∈ (reference span name).reads := by
  simp [reads, nodes, readName?]

theorem mem_calls_call (span : Span) (callee : Ident) (arguments : List Tree) :
    callee.name ∈ (call span callee arguments).calls := by
  simp [calls, nodes, calledName?]

/-! ## Expressions -/

/-- Environments and functions that a tree cannot tell apart: they agree on the names that it reads
and calls. -/
structure Agreed (builtins builtins' : Builtins) (env env' : Environment) (t : Tree) : Prop where
  reads : env.SameOn t.reads env'
  calls : builtins.SameOn t.calls builtins'

/-- What agrees on a tree agrees on its parts. -/
theorem Agreed.part (h : Agreed builtins builtins' env env' t) (hc : c ∈ t.parts) :
    Agreed builtins builtins' env env' c where
  reads x hx := h.reads x (reads_subset_of_part hc hx)
  calls f hf := h.calls f (calls_subset_of_part hc hf)

/-- The value of a call depends on the function of its name and on the values of its arguments,
and on nothing that is bound. -/
theorem eval_call_of_agree (span : Span) {callee : Ident} {arguments : List Tree}
    (hcallee : builtins.get? callee.name = builtins'.get? callee.name)
    (harguments : evalAll builtins env arguments = evalAll builtins' env' arguments) :
    (call span callee arguments).eval builtins env
      = (call span callee arguments).eval builtins' env' := by
  simp only [eval, hcallee, harguments]

mutual

/-- An expression has one value wherever the names that it reads and calls mean the same. -/
theorem eval_of_agree :
    ∀ t : Tree, Agreed builtins builtins' env env' t → t.eval builtins env = t.eval builtins' env'
  | .reference span name, h => by
    rw [eval, eval, h.reads name (mem_reads_reference span name)]
  | .binary span op left right, h => by
    rw [eval, eval, eval_of_agree left (h.part (by simp [parts])),
      eval_of_agree right (h.part (by simp [parts]))]
  | .list span items, h => by
    rw [eval, eval, evalAll_of_agree items fun _ => h.part]
  | .call span callee arguments, h =>
    eval_call_of_agree span (h.calls _ (mem_calls_call span callee arguments))
      (evalAll_of_agree arguments fun _ => h.part)
  | .number .., _ | .boolean .., _ | .string .., _ | .block .., _ | .assign .., _ | .ifThen .., _
  | .ifElse .., _ | .forRange .., _ | .whileLoop .., _ | .print .., _ => by
    simp only [eval]

/-- Where variables and functions agree on expressions, so do their values. -/
theorem evalAll_of_agree :
    ∀ ts : List Tree, (∀ t ∈ ts, Agreed builtins builtins' env env' t) →
      evalAll builtins env ts = evalAll builtins' env' ts
  | [], _ => by rw [evalAll, evalAll]
  | t :: rest, h => by
    obtain ⟨ht, hrest⟩ := List.forall_mem_cons.mp h
    rw [evalAll, evalAll, eval_of_agree t ht, evalAll_of_agree rest hrest]

end

end Tree

/-! ## Runs -/

/-- States that have printed the same and bind the given names alike. -/
structure State.SameOn (names : List Text) (s s' : State) : Prop where
  printed : s.printed = s'.printed
  environment : s.environment.SameOn names s'.environment

/-- States with the same values in the variables that are read are in lockstep. -/
theorem lockstepOn_sameOn (builtins : Builtins) (names : List Text) :
    LockstepOn (·.reads ⊆ names) builtins builtins (State.SameOn names) where
  part h hc := List.Subset.trans (Tree.reads_subset_of_part hc) h
  eval hs e he := Tree.eval_of_agree e ⟨fun x hx => hs.environment x (he hx), fun _ _ => rfl⟩
  bind hs name value := ⟨hs.printed, hs.environment.insert name value⟩
  print hs value := ⟨congrArg (·.push value.text.endLine) hs.printed, hs.environment⟩

/-- Tables with the same functions under the names that are called make no difference. -/
theorem lockstepOn_eq (h : builtins.SameOn names builtins') :
    LockstepOn (·.calls ⊆ names) builtins builtins' Eq where
  part ht hc := List.Subset.trans (Tree.calls_subset_of_part hc) ht
  eval := by
    rintro s _ rfl e he
    exact Tree.eval_of_agree e ⟨fun _ _ => rfl, fun f hf => h f (he hf)⟩
  bind := (lockstep_eq builtins).bind
  print := (lockstep_eq builtins).print

/-- Ends of two runs that cannot be told apart by the given names: both abort for one reason, or
both return the same output, error and value and leave environments that agree on the names. -/
inductive SameRun (names : List Text) : Except Abort RunResult → Except Abort RunResult → Prop
  | aborted (abort : Abort) : SameRun names (.error abort) (.error abort)
  | returned (output : Text) (error : Option Diagnostic) (value : Option Value)
      {env env' : Environment} : env.SameOn names env' →
      SameRun names (.ok ⟨output, error, env, value⟩) (.ok ⟨output, error, env', value⟩)

namespace Program

variable {p : Program}

/-- A run depends on nothing that is bound but the names that it reads. -/
theorem sameRun_of_sameOn (fuel : Nat) (h : env.SameOn p.toTree.reads env') :
    SameRun p.toTree.reads (p.run fuel builtins env) (p.run fuel builtins env') := by
  have hparts : ∀ t ∈ p.statements, t.reads ⊆ p.toTree.reads :=
    fun _ ht => Tree.reads_subset_of_part (t := p.toTree) ht
  have hstart : State.SameOn p.toTree.reads (.start env) (.start env') := ⟨rfl, h⟩
  rw [run_eq_resultOf, run_eq_resultOf]
  obtain ⟨abort, hx, hx'⟩ | ⟨s, s', error, value, hs, hx, hx'⟩ :=
    resultOf_execAll_agree (lockstepOn_sameOn builtins _) fuel hparts none hstart
  · rw [hx, hx']
    exact .aborted abort
  · have houtput : s.output = s'.output := congrArg (·.toList.flatten) hs.printed
    rw [hx, hx', houtput]
    exact .returned s'.output error value hs.environment

/-- A run depends on no function but those that it calls. -/
theorem run_eq_of_sameOn (fuel : Nat) (env : Environment)
    (h : builtins.SameOn p.toTree.calls builtins') :
    p.run fuel builtins env = p.run fuel builtins' env := by
  have hparts : ∀ t ∈ p.statements, t.calls ⊆ p.toTree.calls :=
    fun _ ht => Tree.calls_subset_of_part (t := p.toTree) ht
  rw [run_eq_resultOf, run_eq_resultOf]
  obtain ⟨abort, hx, hx'⟩ | ⟨s, _, error, value, rfl, hx, hx'⟩ :=
    resultOf_execAll_agree (lockstepOn_eq h) fuel hparts none (Eq.refl (State.start env))
  · rw [hx, hx']
  · rw [hx, hx']

/-- Runs from environments that agree on the names that a program reads end alike, and the same
program runs the same with functions that agree on the names that it calls. A name that is bound and
not read changes nothing, were it that of a function, and a call looks its function up in no
environment: environments that give its arguments the same values give it the same value. -/
theorem run_of_agree (p : Program) (builtins : Builtins) (fuel : Nat) :
    (∀ env env' : Environment, env.SameOn p.toTree.reads env' →
        SameRun p.toTree.reads (p.run fuel builtins env) (p.run fuel builtins env'))
      ∧ (∀ builtins' : Builtins, builtins.SameOn p.toTree.calls builtins' →
        ∀ env, p.run fuel builtins env = p.run fuel builtins' env)
      ∧ (∀ name ∉ p.toTree.reads, ∀ (env : Environment) (value : Value),
        SameRun p.toTree.reads (p.run fuel builtins env)
          (p.run fuel builtins (env.insert name value)))
      ∧ ∀ (span : Span) (callee : Ident) (arguments : List Tree) (env env' : Environment),
        Tree.evalAll builtins env arguments = Tree.evalAll builtins env' arguments →
          (Tree.call span callee arguments).eval builtins env
            = (Tree.call span callee arguments).eval builtins env' := by
  refine ⟨?_, ?_, ?_, ?_⟩
  · intro env env' h
    exact sameRun_of_sameOn fuel h
  · intro builtins' h env
    exact run_eq_of_sameOn fuel env h
  · intro name hname env value
    exact sameRun_of_sameOn fuel (Environment.sameOn_insert hname env value)
  · intro span callee arguments env env' h
    exact Tree.eval_call_of_agree span rfl h

/-- The call `str(n)`. -/
def strOfN (span : Span) : Tree := .call span ⟨span, "str"⟩ [.reference span "n"]

/-- The loop `for i in range(0, n): print(str(n))`. -/
def printRepeatedly : Program :=
  let span : Span := ⟨⟨1, 1⟩, ⟨1, 2⟩⟩
  ⟨span, [.forRange span ⟨span, "i"⟩ (.number span (.int 0)) (.reference span "n")
    (.print span (strOfN span))]⟩

/-- The functions of the language, and one more under the name of a variable. -/
def withFunctionN : Builtins := ⟨("n", ⟨0, fun _ => .bool false⟩) :: Builtins.standard.table⟩

/-- Two rounds of the loop. -/
def two : Environment := ⟨[("n", .int 2)]⟩

/-- The same with a value for the iterator. -/
def twoAndIterator : Environment := two.insert "i" (.bool true)

theorem run_of_agree_printRepeatedly :
    two.SameOn printRepeatedly.toTree.reads twoAndIterator
      ∧ SameRun printRepeatedly.toTree.reads (printRepeatedly.run 0 .standard two)
        (printRepeatedly.run 0 .standard twoAndIterator)
      ∧ Builtins.standard.SameOn printRepeatedly.toTree.calls withFunctionN
      ∧ printRepeatedly.run 0 .standard two = printRepeatedly.run 0 withFunctionN two
      ∧ ("str" : Text) ∉ printRepeatedly.toTree.reads
      ∧ SameRun printRepeatedly.toTree.reads (printRepeatedly.run 0 .standard two)
        (printRepeatedly.run 0 .standard (two.insert "str" (.bool true)))
      ∧ (strOfN printRepeatedly.span).eval .standard two
        = (strOfN printRepeatedly.span).eval .standard (two.insert "str" (.bool true))
      ∧ (printRepeatedly.run 0 .standard two).toOption.map (·.output) = some "2\n2\n" := by
  have hcalls : printRepeatedly.toTree.calls = [("str" : Text)] := by decide +kernel
  have hstr : ("str" : Text) ∉ printRepeatedly.toTree.reads := by decide +kernel
  have hsame : two.SameOn printRepeatedly.toTree.reads twoAndIterator :=
    Environment.sameOn_insert (by decide +kernel) two (.bool true)
  have hfunctions : Builtins.standard.SameOn printRepeatedly.toTree.calls withFunctionN := by
    rw [hcalls]
    intro f hf
    obtain rfl : f = "str" := List.mem_singleton.mp hf
    rfl
  obtain ⟨hrun, hfunction, hbind, hcall⟩ := run_of_agree printRepeatedly .standard 0
  exact ⟨hsame, hrun _ _ hsame, hfunctions, hfunction _ hfunctions two, hstr, hbind _ hstr two _,
    hcall _ _ _ _ _ rfl, by decide +kernel⟩

end Program

end Plume
