import Mathlib.Data.List.Forall2
import Plume.Proofs.Provenance

/-!
# Blocks inside blocks

A block that stands in another may be replaced by its statements, anywhere in a program: what the
program prints, reports and binds stays as it is. Only the value of a run can change, as a block has
none. It is the value of the last statement at the top, if that is an expression or an assignment
(`Program.run_of_splices`).

## Shape of the proof

Running takes no account of a tree but through its place, its value as an expression and its effect
as a statement, so trees that agree in these (`RunAlike`) may stand for one another as parts of any
tree (`RunAlike.withParts`). Splicing a block gives such a tree (`runAlike_splice`), and whatever is
around it follows.
-/

namespace Plume

namespace Tree

/-! ## Splicing -/

/-- The tree with other parts in place of its own. -/
def withParts : Tree → List Tree → Tree
  | .binary span op _ _, [left, right] => .binary span op left right
  | .list span _, items => .list span items
  | .call span callee _, arguments => .call span callee arguments
  | .block span _, statements => .block span statements
  | .assign span target _, [value] => .assign span target value
  | .ifThen span _ _, [condition, body] => .ifThen span condition body
  | .ifElse span _ _ _, [condition, body, otherwise] => .ifElse span condition body otherwise
  | .forRange span iterator _ _ _, [first, stop, body] => .forRange span iterator first stop body
  | .whileLoop span _ _, [condition, body] => .whileLoop span condition body
  | .print span _, [argument] => .print span argument
  | t, _ => t

/-- The second tree is the first with the statements of a block in place of the block, at one place
where the block stands directly in another. -/
inductive Splices : Tree → Tree → Prop
  | here (outer inner : Span) (before statements after : List Tree) :
      Splices (.block outer (before ++ .block inner statements :: after))
        (.block outer (before ++ statements ++ after))
  | within {t c c' : Tree} {before after : List Tree} : t.parts = before ++ c :: after →
      Splices c c' → Splices t (t.withParts (before ++ c' :: after))

/-! ## Trees that run alike -/

/-- Trees that have the same place, the same value as expressions and the same effect as
statements. -/
structure RunAlike (t t' : Tree) : Prop where
  span : t'.span = t.span
  eval : ∀ builtins env, t'.eval builtins env = t.eval builtins env
  exec : ∀ builtins fuel s, t'.exec builtins fuel s = t.exec builtins fuel s

theorem RunAlike.refl (t : Tree) : RunAlike t t := ⟨rfl, fun _ _ => rfl, fun _ _ _ => rfl⟩

variable {builtins : Builtins} {env : Environment} {fuel : Nat} {t t' : Tree}
  {ts ts' : List Tree}

/-- Trees that run alike have the same values. -/
theorem evalAll_of_forall₂ (h : List.Forall₂ RunAlike ts ts') :
    evalAll builtins env ts' = evalAll builtins env ts := by
  induction h with
  | nil => rfl
  | cons hfirst _ ih => rw [evalAll, evalAll, hfirst.eval, ih]

/-- Sequences of trees that run alike run alike. -/
theorem execAll_of_forall₂ (h : List.Forall₂ RunAlike ts ts') (s : State)
    (value : Option Value) :
    execAll builtins fuel ts' s value = execAll builtins fuel ts s value := by
  induction h generalizing s value with
  | nil => rfl
  | cons hfirst _ ih =>
    rw [execAll, execAll, hfirst.exec]
    simp only [ih]

end Tree

namespace State

variable {builtins : Builtins} {t t' : Tree} (s : State)

/-- Trees that run alike have the same value in every state. -/
theorem eval_of_runAlike (h : t.RunAlike t') : s.eval builtins t' = s.eval builtins t := by
  rw [State.eval, State.eval, h.eval]

theorem test_of_runAlike (h : t.RunAlike t') : s.test builtins t' = s.test builtins t := by
  rw [State.test, State.test, s.eval_of_runAlike h]

theorem bound_of_runAlike (h : t.RunAlike t') : s.bound builtins t' = s.bound builtins t := by
  rw [State.bound, State.bound, s.eval_of_runAlike h, h.span]

end State

namespace Tree

/-- As a statement an expression does nothing but have its value. -/
theorem RunAlike.of_expression {t t' : Tree} (ht : t.isStatement = false)
    (ht' : t'.isStatement = false) (hspan : t'.span = t.span)
    (heval : ∀ builtins env, t'.eval builtins env = t.eval builtins env) : RunAlike t t' := by
  refine ⟨hspan, heval, fun builtins fuel s => ?_⟩
  rw [exec_of_isStatement_eq_false ht, exec_of_isStatement_eq_false ht', State.eval, State.eval,
    heval]

/-- A statement has no value as an expression. -/
theorem eval_of_isStatement {t : Tree} (ht : t.isStatement = true) (builtins : Builtins)
    (env : Environment) : t.eval builtins env = .error (.fault .misplacedStatement) := by
  cases t with
  | number | boolean | string | reference | binary | list | call => cases ht
  | _ => rw [eval]

/-- Statements run alike if they are executed alike, for they have no value. -/
theorem RunAlike.of_statement {t t' : Tree} (ht : t.isStatement = true)
    (ht' : t'.isStatement = true) (hspan : t'.span = t.span)
    (hexec : ∀ builtins fuel s, t'.exec builtins fuel s = t.exec builtins fuel s) :
    RunAlike t t' := by
  refine ⟨hspan, fun builtins env => ?_, hexec⟩
  rw [eval_of_isStatement ht, eval_of_isStatement ht']

/-- Trees that run alike may stand for one another in every tree. -/
theorem RunAlike.withParts {t : Tree} {parts : List Tree}
    (h : List.Forall₂ RunAlike t.parts parts) : RunAlike t (t.withParts parts) := by
  cases t with
  | number | boolean | string | reference => exact .refl _
  -- an expression is evaluated by way of its parts, and a statement executed by way of them
  | binary span op left right =>
    obtain _ | ⟨hleft, _ | ⟨hright, _ | _⟩⟩ := h
    refine .of_expression rfl rfl rfl fun builtins env => ?_
    rw [Tree.withParts, Tree.eval, Tree.eval, hleft.eval, hright.eval]
  | list span items =>
    refine .of_expression rfl rfl rfl fun builtins env => ?_
    rw [Tree.withParts, Tree.eval, Tree.eval, evalAll_of_forall₂ h]
    rfl
  | call span callee arguments =>
    refine .of_expression rfl rfl rfl fun builtins env => ?_
    rw [Tree.withParts, Tree.eval, Tree.eval, evalAll_of_forall₂ h]
    rfl
  | block span statements =>
    refine .of_statement rfl rfl rfl fun builtins fuel s => ?_
    rw [Tree.withParts, Tree.exec, Tree.exec, execAll_of_forall₂ h]
    rfl
  | assign span target value =>
    obtain _ | ⟨hvalue, _ | _⟩ := h
    refine .of_statement rfl rfl rfl fun builtins fuel s => ?_
    rw [Tree.withParts, Tree.exec, Tree.exec, s.eval_of_runAlike hvalue]
  | ifThen span condition body =>
    obtain _ | ⟨hcondition, _ | ⟨hbody, _ | _⟩⟩ := h
    refine .of_statement rfl rfl rfl fun builtins fuel s => ?_
    rw [Tree.withParts, Tree.exec, Tree.exec, s.test_of_runAlike hcondition, hbody.exec]
  | ifElse span condition body otherwise =>
    obtain _ | ⟨hcondition, _ | ⟨hbody, _ | ⟨hotherwise, _ | _⟩⟩⟩ := h
    refine .of_statement rfl rfl rfl fun builtins fuel s => ?_
    rw [Tree.withParts, Tree.exec, Tree.exec, s.test_of_runAlike hcondition, hbody.exec,
      hotherwise.exec]
  | forRange span iterator first stop body =>
    obtain _ | ⟨hfirst, _ | ⟨hstop, _ | ⟨hbody, _ | _⟩⟩⟩ := h
    refine .of_statement rfl rfl rfl fun builtins fuel s => ?_
    simp only [Tree.withParts, Tree.exec, s.bound_of_runAlike hfirst, s.bound_of_runAlike hstop,
      hbody.exec]
  | whileLoop span condition body =>
    obtain _ | ⟨hcondition, _ | ⟨hbody, _ | _⟩⟩ := h
    refine .of_statement rfl rfl rfl fun builtins fuel s => ?_
    simp only [Tree.withParts, Tree.exec, State.test_of_runAlike _ hcondition, hbody.exec]
  | print span argument =>
    obtain _ | ⟨hargument, _ | _⟩ := h
    refine .of_statement rfl rfl rfl fun builtins fuel s => ?_
    rw [Tree.withParts, Tree.exec, Tree.exec, s.eval_of_runAlike hargument]

/-! ## A block and its statements -/

/-- The state that statements reach does not depend on the value at hand. -/
theorem execAll_bind_state {α : Type} (f : State → Except Halt α) (ts : List Tree) (s : State)
    (value : Option Value) :
    (do let reached ← execAll builtins fuel ts s value; f reached.state)
      = (do let reached ← execAll builtins fuel ts s none; f reached.state) := by
  cases ts with
  | nil =>
    rw [execAll, execAll]
    rfl
  | cons t rest => rw [execAll_of_ne_nil (List.cons_ne_nil t rest)]

/-- A block and its statements have the same effect in the block around them. -/
theorem runAlike_splice (outer inner : Span) (before statements after : List Tree) :
    RunAlike (.block outer (before ++ .block inner statements :: after))
      (.block outer (before ++ statements ++ after)) := by
  refine .of_statement rfl rfl rfl fun builtins fuel s => ?_
  rw [List.append_assoc]
  simp only [exec, execAll_append, execAll, bind_assoc, pure_bind]
  refine congrArg _ (funext fun reached => ?_)
  -- the statements behind end in one state, whatever value they find
  let ending (s : State) : Except Halt Progress := do
    let reached ← execAll builtins fuel after s none
    return ⟨reached.state, none⟩
  have hending : ∀ s value, (do
      let reached ← execAll builtins fuel after s value
      return (⟨reached.state, none⟩ : Progress)) = ending s :=
    execAll_bind_state (fun s => return (⟨s, none⟩ : Progress)) after
  simp only [hending]
  exact execAll_bind_state ending statements reached.state reached.value

/-- Splicing blocks into the sequences around them changes nothing about a run. -/
theorem Splices.runAlike {t t' : Tree} (h : Splices t t') : RunAlike t t' := by
  induction h with
  | here outer inner before statements after =>
    exact runAlike_splice outer inner before statements after
  | within hparts _ ih =>
    refine .withParts ?_
    rw [hparts]
    have hself : ∀ ts, List.Forall₂ RunAlike ts ts :=
      fun ts => List.forall₂_same.mpr fun t _ => .refl t
    exact List.rel_append (hself _) (.cons ih (hself _))

/-! ## Values -/

/-- Whether a statement gives a value: it is an expression or an assignment. -/
def givesValue : Tree → Bool
  | .assign .. => true
  | t => !t.isStatement

/-- What a statement does first leaves it open whether it gives a value. -/
theorem value_eq_none_of_bind {α : Type} {x : Except Halt α} {f : α → Except Halt Progress}
    {reached : Progress} (h : x >>= f = .ok reached)
    (hf : ∀ a, f a = .ok reached → reached.value = none) : reached.value = none := by
  obtain ⟨a, -, h⟩ := bind_eq_ok.mp h
  exact hf a h

/-- Statements that give no value leave none. -/
theorem value_eq_none_of_exec {t : Tree} {s : State} {reached : Progress}
    (ht : t.givesValue = false) (h : exec builtins fuel t s = .ok reached) :
    reached.value = none := by
  -- every statement that gives no value ends by dropping what it has
  have hdone : ∀ s' : State, Except.ok ⟨s', none⟩ = Except.ok (ε := Halt) reached →
      reached.value = none := by
    rintro s' ⟨⟩
    rfl
  cases t with
  | number | boolean | string | reference | binary | list | call | assign => cases ht
  | block span statements =>
    rw [exec] at h
    exact value_eq_none_of_bind h fun _ => hdone _
  | ifThen span condition body =>
    rw [exec] at h
    refine value_eq_none_of_bind h fun holds h => ?_
    split at h
    · exact value_eq_none_of_bind h fun _ => hdone _
    · exact hdone _ h
  | ifElse span condition body otherwise =>
    rw [exec] at h
    refine value_eq_none_of_bind h fun holds h => ?_
    split at h
    · exact value_eq_none_of_bind h fun _ => hdone _
    · exact value_eq_none_of_bind h fun _ => hdone _
  | forRange span iterator first stop body =>
    rw [exec] at h
    refine value_eq_none_of_bind h fun _ h => ?_
    refine value_eq_none_of_bind h fun _ h => ?_
    exact value_eq_none_of_bind h fun _ => hdone _
  | whileLoop span condition body =>
    rw [exec] at h
    exact value_eq_none_of_bind h fun _ => hdone _
  | print span argument =>
    rw [exec] at h
    exact value_eq_none_of_bind h fun _ => hdone _

/-- The value of an assignment is what it has bound its target to. -/
theorem value_of_exec_assign {span : Span} {target : Ident} {value : Tree} {s : State}
    {reached : Progress} (h : exec builtins fuel (.assign span target value) s = .ok reached) :
    ∃ v, reached.value = some v ∧ reached.state.environment.get? target.name = some v := by
  rw [exec, bind_eq_ok] at h
  obtain ⟨v, -, h⟩ := h
  cases h
  refine ⟨v, rfl, ?_⟩
  rw [State.bind, Environment.get?_insert, if_pos rfl]

/-- Statements that give a value leave one. -/
theorem value_ne_none_of_exec {t : Tree} {s : State} {reached : Progress}
    (ht : t.givesValue = true) (h : exec builtins fuel t s = .ok reached) :
    reached.value ≠ none := by
  cases t with
  | block | ifThen | ifElse | forRange | whileLoop | print => cases ht
  | assign span target value =>
    obtain ⟨v, hv, -⟩ := value_of_exec_assign h
    exact Option.ne_none_iff_exists'.mpr ⟨v, hv⟩
  | number | boolean | string | reference | binary | list | call =>
    rw [exec_of_isStatement_eq_false rfl, bind_eq_ok] at h
    obtain ⟨v, -, h⟩ := h
    cases h
    exact Option.some_ne_none v

/-- Statements end as the last of them does. -/
theorem exists_exec_of_execAll {init : List Tree} {last : Tree} {s : State} {value : Option Value}
    {reached : Progress} (h : execAll builtins fuel (init ++ [last]) s value = .ok reached) :
    ∃ s', exec builtins fuel last s' = .ok reached := by
  rw [execAll_append, bind_eq_ok] at h
  obtain ⟨before, -, h⟩ := h
  rw [execAll, bind_eq_ok] at h
  obtain ⟨reached', hlast, h⟩ := h
  rw [execAll] at h
  cases h
  exact ⟨before.state, hlast⟩

end Tree

/-! ## Programs -/

/-- The result without its value: what has been printed, reported and bound. -/
def RunResult.withoutValue (r : RunResult) : RunResult := { r with value := none }

namespace Program

variable {fuel : Nat} {builtins : Builtins} {env : Environment} {p q : Program} {r : RunResult}

/-- A program run as a block has no value. -/
theorem resultOf_exec_toTree (p : Program) :
    resultOf (p.toTree.exec builtins fuel (.start env))
      = (p.run fuel builtins env).map RunResult.withoutValue := by
  rw [Program.run_eq_resultOf, Program.toTree, Tree.exec]
  rcases Tree.execAll builtins fuel p.statements (.start env) none with ⟨_ | _, _⟩ | ⟨_, _⟩ <;> rfl

/-- Programs that run alike have the same results, but for the value. -/
theorem run_of_runAlike (h : p.toTree.RunAlike q.toTree) :
    (q.run fuel builtins env).map RunResult.withoutValue
      = (p.run fuel builtins env).map RunResult.withoutValue := by
  rw [← resultOf_exec_toTree, ← resultOf_exec_toTree, h.exec]

/-- The last statement of a run that has met no problem gives the value. -/
theorem exists_exec_last (h : p.Returns builtins env r) (herror : r.error = none) {last : Tree}
    (hlast : p.statements.getLast? = some last) :
    ∃ fuel s reached, last.exec builtins fuel s = .ok reached ∧ r.value = reached.value
      ∧ r.environment = reached.state.environment := by
  obtain ⟨fuel, h⟩ := h
  obtain ⟨init, hinit⟩ := List.getLast?_eq_some_iff.mp hlast
  obtain ⟨reached, hexec, rfl⟩ | ⟨d, s, -, rfl⟩ := Program.run_eq_ok h
  · rw [hinit] at hexec
    obtain ⟨s, hs⟩ := Tree.exists_exec_of_execAll hexec
    exact ⟨fuel, s, reached, hs, rfl, rfl⟩
  · cases herror

/-- A run with a value has no error. -/
theorem error_eq_none_of_value (h : p.Returns builtins env r) (hvalue : r.value ≠ none) :
    r.error = none := by
  obtain ⟨fuel, h⟩ := h
  obtain ⟨reached, -, rfl⟩ | ⟨d, s, -, rfl⟩ := Program.run_eq_ok h
  · rfl
  · exact absurd rfl hvalue

/-- A run has a value exactly if it meets no problem and its last statement gives one. -/
theorem value_ne_none_iff (h : p.Returns builtins env r) :
    r.value ≠ none ↔ r.error = none
      ∧ ∃ last, p.statements.getLast? = some last ∧ last.givesValue = true := by
  constructor
  · intro hvalue
    have herror := error_eq_none_of_value h hvalue
    refine ⟨herror, ?_⟩
    cases hlast : p.statements.getLast? with
    -- a program without statements has no value
    | none =>
      obtain ⟨span, statements⟩ := p
      obtain rfl : statements = [] := List.getLast?_eq_none_iff.mp hlast
      rw [(returns_nil span).mp h] at hvalue
      exact absurd rfl hvalue
    | some last =>
      refine ⟨last, rfl, ?_⟩
      by_contra hgives
      obtain ⟨fuel, s, reached, hexec, heq, -⟩ := exists_exec_last h herror hlast
      rw [heq] at hvalue
      exact hvalue (Tree.value_eq_none_of_exec (Bool.eq_false_iff.mpr hgives) hexec)
  · rintro ⟨herror, last, hlast, hgives⟩
    obtain ⟨fuel, s, reached, hexec, heq, -⟩ := exists_exec_last h herror hlast
    rw [heq]
    exact Tree.value_ne_none_of_exec hgives hexec

/-- The value of a run that ends with an assignment is the value of its target. -/
theorem value_eq_get? (h : p.Returns builtins env r) (herror : r.error = none) {span : Span}
    {target : Ident} {value : Tree}
    (hlast : p.statements.getLast? = some (.assign span target value)) :
    r.value = r.environment.get? target.name := by
  obtain ⟨fuel, s, reached, hexec, hvalue, henvironment⟩ := exists_exec_last h herror hlast
  obtain ⟨v, hv, hget⟩ := Tree.value_of_exec_assign hexec
  rw [hvalue, henvironment, hv, hget]

/-- The statements of a block may stand for the block in the block around it, wherever that is in a
program: the run prints, reports and binds the same, or aborts for the same reason. Its value is
that of the last statement at the top, if there is no problem and that statement gives one; for an
assignment it is what the target is bound to in the end. -/
theorem run_of_splices (builtins : Builtins) (env : Environment) :
    (∀ p q : Program, p.toTree.Splices q.toTree → ∀ fuel,
        (q.run fuel builtins env).map RunResult.withoutValue
          = (p.run fuel builtins env).map RunResult.withoutValue)
      ∧ (∀ (span span' inner : Span) (statements : List Tree) (fuel : Nat),
        (Program.run fuel builtins env ⟨span, statements⟩).map RunResult.withoutValue
          = (Program.run fuel builtins env ⟨span', [.block inner statements]⟩).map
              RunResult.withoutValue)
      ∧ ∀ (p : Program) (r : RunResult), p.Returns builtins env r →
        (r.value ≠ none ↔ r.error = none
          ∧ ∃ last, p.statements.getLast? = some last ∧ last.givesValue = true)
        ∧ ∀ span target value, r.error = none →
          p.statements.getLast? = some (.assign span target value) →
            r.value = r.environment.get? target.name := by
  refine ⟨fun p q h fuel => run_of_runAlike h.runAlike, ?_, fun p r h => ⟨value_ne_none_iff h, ?_⟩⟩
  · intro span span' inner statements fuel
    have halike := Tree.runAlike_splice span' inner [] statements []
    rw [List.append_nil] at halike
    exact run_of_runAlike (p := ⟨span', [.block inner statements]⟩) (q := ⟨span', statements⟩)
      halike
  · intro span target value herror hlast
    exact value_eq_get? h herror hlast

/-- A loop whose body is a block that starts with the given statements, and an assignment behind
it. -/
def loopThenAssign (opening : List Tree) : Program :=
  let here : Span := ⟨⟨1, 1⟩, ⟨1, 1⟩⟩
  ⟨here, [.forRange here ⟨here, "i"⟩ (.number here (.int 0)) (.number here (.int 2))
    (.block here (opening ++ [.print here (.reference here "x")])),
    .assign here ⟨here, "y"⟩ (.reference here "x")]⟩

/-- `x = i; z = x`, with the places left out. -/
def twoAssignments : List Tree :=
  let here : Span := ⟨⟨1, 1⟩, ⟨1, 1⟩⟩
  [.assign here ⟨here, "x"⟩ (.reference here "i"), .assign here ⟨here, "z"⟩ (.reference here "x")]

theorem run_of_splices_loopThenAssign :
    (∀ fuel, ((loopThenAssign twoAssignments).run fuel .standard .empty).map RunResult.withoutValue
      = ((loopThenAssign [.block ⟨⟨1, 1⟩, ⟨1, 1⟩⟩ twoAssignments]).run fuel .standard .empty).map
          RunResult.withoutValue)
      ∧ ∃ r, (loopThenAssign twoAssignments).Returns .standard .empty r ∧ r.error = none
        ∧ r.value ≠ none ∧ r.value = r.environment.get? "y" := by
  obtain ⟨hsplices, -, hvalue⟩ := run_of_splices .standard .empty
  refine ⟨hsplices _ _ ?_, ?_⟩
  · exact @Tree.Splices.within _ _ _ [] _ rfl
      (@Tree.Splices.within _ _ _ [_, _] [] rfl (.here _ _ [] twoAssignments _))
  · have hreturns : (loopThenAssign twoAssignments).Returns .standard .empty _ := ⟨0, rfl⟩
    obtain ⟨hne, hget⟩ := hvalue _ _ hreturns
    exact ⟨_, hreturns, rfl, hne.mpr ⟨rfl, _, rfl, rfl⟩, hget _ _ _ rfl rfl⟩

end Program

end Plume
