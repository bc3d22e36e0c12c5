import Plume.Proofs.Nodes
import Plume.Proofs.Placement
import Plume.Proofs.Sequencing

/-!
# Where a run stops

A run halts for lack of fuel, or at one node of its tree. The node is an expression whose own
operation stops although its parts have values (`StopsAt`), or a loop over a range that has a bound
without an integer value (`HaltsWithin`). Nothing is reported on the way out: the halt carries the
one diagnostic, and the state in which it was met. Which problems a node can be reported for then
depends on the node alone (`CanCause`).

## Shape of the proof

`FailsOnly` gives what every error of a result is like. For operators this is `operate_explained`,
for expressions `eval_stopsWithin`, and for statements `exec_haltsWithin`, where the rules for loops
carry it through every round. What is found within a part of a tree is found within the tree
(`StopsWithin.of_part`, `HaltsWithin.of_part`).
-/

namespace Plume

section FailsOnly

variable {ε α β : Type} {p q : ε → Prop} {x : Except ε α}

/-- What fails in some ways fails in more. -/
theorem FailsOnly.mono (hx : FailsOnly p x) (h : ∀ e, p e → q e) : FailsOnly q x :=
  fun e he => h e (hx e he)

/-- A step that goes on only with what the step before has given. -/
theorem FailsOnly.bind_ok {f : α → Except ε β} (hx : FailsOnly p x)
    (hf : ∀ a, x = .ok a → FailsOnly p (f a)) : FailsOnly p (x >>= f) := by
  cases x with
  | error e => exact failsOnly_error (hx e rfl)
  | ok a => exact hf a rfl

end FailsOnly

/-! ## Operators -/

/-- The problems that an operator can be reported for. -/
inductive Operator.CanMeet : Operator → Problem → Prop
  | division : CanMeet (.arithmetic .div) .divisionByZero
  | length {op : Arithmetic} {n : Nat} : op = .add ∨ op = .mul → maxSequenceLength < n →
      CanMeet (.arithmetic op) (.tooLong n)
  | operands (op : Arithmetic) (left right : TypeName) :
      CanMeet (.arithmetic op) (.unsupportedOperands op left right)
  | order {op : Relation} (left right : TypeName) : op ≠ .eq → op ≠ .ne →
      CanMeet (.relation op) (.unorderable op left right)

namespace Value

/-- A string times a positive integer that no float can hold, the string being so short that the
product would not be too long. -/
def Overflows (a b : Value) : Prop :=
  ∃ t n, (a = .str t ∧ b.integer? = some n ∨ b = .str t ∧ a.integer? = some n)
    ∧ t.length * n.toNat ≤ maxSequenceLength ∧ 0 < n ∧ (Binary64.ofInt n).isInfinite = true

/-- A list of more items than the stack has room for, times a positive integer, the product of which
would not be too long. -/
def Overstacks (a b : Value) : Prop :=
  ∃ items n, (a = .list items ∧ b.integer? = some n ∨ b = .list items ∧ a.integer? = some n)
    ∧ items.length * n.toNat ≤ maxSequenceLength ∧ 0 < n ∧ maxStacked < items.length

/-- The faults of a product. -/
inductive Faults (a b : Value) : Fault → Prop
  | count : a.Overflows b → Faults a b .countTooLarge
  | stack : a.Overstacks b → Faults a b .stackExceeded

/-- Why an operator has stopped. -/
def Explained (op : Operator) (a b : Value) : Stop Problem → Prop
  | .problem p => op.CanMeet p
  | .fault f => op = .arithmetic .mul ∧ a.Faults b f

variable {a b : Value}

/-- A sequence that would be too long explains the failure. -/
theorem checkLength_explained {op : Arithmetic} (hop : op = .add ∨ op = .mul) (length : Nat) :
    FailsOnly (Explained (.arithmetic op) a b) (checkLength length) := by
  unfold checkLength
  split
  · exact failsOnly_ok ()
  next hlong => exact failsOnly_error (.length hop (Nat.lt_of_not_le hlong))

/-- A length that has passed the check is within the bound. -/
theorem checkLength_eq_ok {length : Nat} (h : checkLength length = .ok ()) :
    length ≤ maxSequenceLength := by
  unfold checkLength at h
  split at h
  next hle => exact hle
  · cases h

/-- A product stops as the operator of the two values, of which one is repeated and the other is the
count. -/
theorem times?_explained {count : Int} {v : Value} {r : Except (Stop Problem) Value}
    (hcount : v = a ∧ b.integer? = some count ∨ v = b ∧ a.integer? = some count)
    (h : v.times? count = some r) : FailsOnly (Explained (.arithmetic .mul) a b) r := by
  have hoperands : a = v ∧ b.integer? = some count ∨ b = v ∧ a.integer? = some count := by
    obtain ⟨rfl, hcount⟩ | ⟨rfl, hcount⟩ := hcount
    · exact .inl ⟨rfl, hcount⟩
    · exact .inr ⟨rfl, hcount⟩
  cases v with
  -- a text comes to its count, a list to its length on the stack, and each only past the check
  | str t =>
    obtain rfl := Option.some.inj h
    refine (checkLength_explained (.inr rfl) _).bind_ok fun _ hlength => ?_
    split
    next hhuge =>
      exact failsOnly_error
        ⟨rfl, .count ⟨t, count, hoperands, checkLength_eq_ok hlength, hhuge⟩⟩
    · exact failsOnly_ok _
  | list items =>
    obtain rfl := Option.some.inj h
    refine (checkLength_explained (.inr rfl) _).bind_ok fun _ hlength => ?_
    split
    next hlong =>
      exact failsOnly_error
        ⟨rfl, .stack ⟨items, count, hoperands, checkLength_eq_ok hlength, hlong⟩⟩
    · exact failsOnly_ok _
  | _ => cases h

/-- A joining fails for a length that is too large. -/
theorem append?_explained {r : Except (Stop Problem) Value} (h : a.append? b = some r) :
    FailsOnly (Explained (.arithmetic .add) a b) r := by
  unfold append? at h
  split at h
  · obtain rfl := Option.some.inj h
    exact (checkLength_explained (.inl rfl) _).bind fun _ => failsOnly_ok _
  · obtain rfl := Option.some.inj h
    exact (checkLength_explained (.inl rfl) _).bind fun _ => failsOnly_ok _
  · cases h

/-- An operator on texts and lists fails for a reason that its operands give. -/
theorem combine?_explained {op : Arithmetic} {r : Except (Stop Problem) Value}
    (h : combine? op a b = some r) : FailsOnly (Explained (.arithmetic op) a b) r := by
  unfold combine? at h
  split at h
  · exact append?_explained h
  · split at h
    next n hn => exact times?_explained (.inl ⟨rfl, hn⟩) h
    next n hnone hn => exact times?_explained (.inr ⟨rfl, hn⟩) h
    · cases h
  · cases h

/-- A product of a string or list is what its repetition is, the count being on either side. -/
theorem operate_mul_of_times? {s : Value} {n : Int} {r : Except (Stop Problem) Value}
    (hnumber : s.number? = none) (hinteger : s.integer? = none)
    (hoperands : a = s ∧ b.integer? = some n ∨ b = s ∧ a.integer? = some n)
    (htimes : s.times? n = some r) : operate (.arithmetic .mul) a b = r := by
  obtain ⟨rfl, hb⟩ | ⟨rfl, ha⟩ := hoperands
  · have hproduct : combine? .mul a b = some r := by
      rw [combine?, hb]
      exact htimes
    show calculate .mul a b = r
    rw [calculate, hnumber, hproduct]
    rfl
  · have hproduct : combine? .mul a b = some r := by
      rw [combine?, hinteger, ha]
      exact htimes
    show calculate .mul a b = r
    rw [calculate, hnumber, hproduct]
    cases a.number? <;> rfl

/-- Only a division gives no number. -/
theorem eq_div_of_calculate? {op : Arithmetic} {m n : Number}
    (h : Number.calculate? op m n = none) : op = .div := by
  cases op with
  | div => rfl
  | _ => cases h

/-- An arithmetic operator fails for a reason that its operands give. -/
theorem calculate_explained (op : Arithmetic) (a b : Value) :
    FailsOnly (Explained (.arithmetic op) a b) (calculate op a b) := by
  unfold calculate
  split
  · split
    · exact failsOnly_ok _
    next hnone =>
      obtain rfl := eq_div_of_calculate? hnone
      exact failsOnly_error .division
  · cases h : combine? op a b with
    | none => exact failsOnly_error (.operands op _ _)
    | some r => exact combine?_explained h

/-- A relation fails only for values that cannot be compared. -/
theorem relate_failsOnly (op : Relation) (a b : Value) :
    FailsOnly (Operator.CanMeet (.relation op)) (relate op a b) := by
  unfold relate
  split
  · exact failsOnly_ok _
  · exact failsOnly_ok _
  next heq hne =>
    split
    · exact failsOnly_ok _
    · exact failsOnly_ok _
    · exact failsOnly_error (.order _ _ heq hne)

/-- Every stop of an operator is explained by the operator and its operands. -/
theorem operate_explained (op : Operator) (a b : Value) :
    FailsOnly (Explained op a b) (operate op a b) := by
  cases op with
  | arithmetic op => exact calculate_explained op a b
  | relation op => exact (relate_failsOnly op a b).map.mapError fun _ hp => hp

end Value

namespace Tree

/-- Whether a tree is a statement other than an expression. -/
def isStatement : Tree → Bool
  | .block .. | .assign .. | .ifThen .. | .ifElse .. | .forRange .. | .whileLoop .. | .print .. =>
    true
  | _ => false

variable {builtins : Builtins} {env : Environment} {fuel : Nat} {t c : Tree} {s : State}

/-- An expression as a statement is evaluated, and its value is kept. -/
theorem exec_of_isStatement_eq_false {e : Tree} (h : e.isStatement = false) :
    exec builtins fuel e s = (do
      let v ← s.eval builtins e
      return ⟨s, some v⟩) := by
  cases e with
  | block | assign | ifThen | ifElse | forRange | whileLoop | print => cases h
  | _ => simp only [exec]

/-! ## Expressions -/

/-- The operation of a node stops in an environment where its parts have values. -/
inductive StopsAt (builtins : Builtins) (env : Environment) : Tree → Stop Diagnostic → Prop
  | reference (span : Span) {name : Text} : env.get? name = none →
      StopsAt builtins env (.reference span name) (.problem ⟨.undefinedName name, span.start⟩)
  | binary (span : Span) {op : Operator} {left right : Tree} {a b : Value} {stop : Stop Problem} :
      left.eval builtins env = .ok a → right.eval builtins env = .ok b →
      Value.operate op a b = .error stop →
        StopsAt builtins env (.binary span op left right) (stop.located span.start)
  | callee (span : Span) {callee : Ident} (arguments : List Tree) :
      builtins.get? callee.name = none →
        StopsAt builtins env (.call span callee arguments)
          (.problem ⟨.undefinedName callee.name, span.start⟩)
  | arity (span : Span) {callee : Ident} {arguments : List Tree} {f : Builtin} :
      builtins.get? callee.name = some f → arguments.length ≠ f.arity →
        StopsAt builtins env (.call span callee arguments)
          (.problem ⟨.wrongArity callee.name f.arity arguments.length, span.start⟩)
  | statement {t : Tree} : t.isStatement = true →
      StopsAt builtins env t (.fault .misplacedStatement)

/-- Some node of a tree stops in an environment. -/
def StopsWithin (builtins : Builtins) (env : Environment) (t : Tree) (stop : Stop Diagnostic) :
    Prop :=
  ∃ n, IsNode n t ∧ StopsAt builtins env n stop

theorem StopsAt.stopsWithin {stop : Stop Diagnostic} (h : StopsAt builtins env t stop) :
    StopsWithin builtins env t stop :=
  ⟨t, .self, h⟩

/-- What stops within a part stops within the whole. -/
theorem StopsWithin.of_part {stop : Stop Diagnostic} (hc : c ∈ t.parts)
    (h : StopsWithin builtins env c stop) : StopsWithin builtins env t stop := by
  obtain ⟨n, hn, hstop⟩ := h
  exact ⟨n, .part hc hn, hstop⟩

/-- What stops within a part of a tree stops within the tree. -/
theorem stopsWithin_part {α : Type} {x : Except (Stop Diagnostic) α}
    (h : FailsOnly (StopsWithin builtins env c) x) (hc : c ∈ t.parts) :
    FailsOnly (StopsWithin builtins env t) x :=
  h.mono fun _ => .of_part hc

/-- Each expression has one value. -/
theorem length_of_evalAll {es : List Tree} {values : List Value}
    (h : evalAll builtins env es = .ok values) : values.length = es.length := by
  induction es generalizing values with
  | nil =>
    rw [evalAll] at h
    cases h
    rfl
  | cons e rest ih =>
    rw [evalAll, bind_eq_ok] at h
    obtain ⟨v, -, h⟩ := h
    rw [bind_eq_ok] at h
    obtain ⟨vs, hvs, h⟩ := h
    cases h
    rw [List.length_cons, List.length_cons, ih hvs]

/-- A function fails only for the number of its arguments. -/
theorem apply_failsOnly (f : Builtin) (name : Text) (arguments : List Value) :
    FailsOnly (fun p => p = .wrongArity name f.arity arguments.length
      ∧ arguments.length ≠ f.arity) (f.apply name arguments) := by
  unfold Builtin.apply
  split
  · exact failsOnly_ok _
  next hne => exact failsOnly_error ⟨rfl, hne⟩

mutual

/-- An evaluation stops at a node of the expression. -/
theorem eval_stopsWithin (env : Environment) :
    ∀ e : Tree, FailsOnly (StopsWithin builtins env e) (e.eval builtins env)
  | .number .. | .boolean .. | .string .. => by
    simp only [eval]
    exact failsOnly_ok _
  | .reference span name => by
    rw [eval]
    split
    · exact failsOnly_ok _
    next hnone => exact failsOnly_error (StopsAt.reference span hnone).stopsWithin
  | .binary span op left right => by
    rw [eval]
    refine (stopsWithin_part (eval_stopsWithin env left) (by simp [parts])).bind_ok fun a ha => ?_
    refine (stopsWithin_part (eval_stopsWithin env right) (by simp [parts])).bind_ok fun b hb => ?_
    have hoperate : FailsOnly (fun stop => Value.operate op a b = .error stop)
        (Value.operate op a b) := fun _ h => h
    exact hoperate.mapError fun stop hstop => (StopsAt.binary span ha hb hstop).stopsWithin
  | .list span items => by
    rw [eval]
    refine ((evalAll_stopsWithin env items).mono fun _ h => ?_).bind fun _ => failsOnly_ok _
    obtain ⟨e, he, hstop⟩ := h
    exact hstop.of_part he
  | .call span callee arguments => by
    rw [eval]
    split
    next f hf =>
      refine ((evalAll_stopsWithin env arguments).mono fun _ h => ?_).bind_ok
        fun values hvalues => ?_
      · obtain ⟨e, he, hstop⟩ := h
        exact hstop.of_part he
      -- there are as many values as arguments, so the problem can be told from the node
      refine (apply_failsOnly f callee.name values).mapError ?_
      rintro _ ⟨rfl, hne⟩
      rw [length_of_evalAll hvalues] at hne ⊢
      exact (StopsAt.arity span hf hne).stopsWithin
    next hnone => exact failsOnly_error (StopsAt.callee span arguments hnone).stopsWithin
  | .block .. | .assign .. | .ifThen .. | .ifElse .. | .forRange .. | .whileLoop ..
  | .print .. => by
    simp only [eval]
    exact failsOnly_error (StopsAt.statement rfl).stopsWithin

/-- Values of expressions stop within one of them. -/
theorem evalAll_stopsWithin (env : Environment) :
    ∀ es : List Tree,
      FailsOnly (fun stop => ∃ e ∈ es, StopsWithin builtins env e stop) (evalAll builtins env es)
  | [] => by
    rw [evalAll]
    exact failsOnly_ok _
  | e :: rest => by
    rw [evalAll]
    have hfirst := (eval_stopsWithin env e).mono fun _ h =>
      (⟨e, List.mem_cons_self, h⟩ : ∃ e' ∈ e :: rest, StopsWithin builtins env e' _)
    have hrest := (evalAll_stopsWithin env rest).mono fun _ h => by
      obtain ⟨e', he', hstop⟩ := h
      exact (⟨e', List.mem_cons_of_mem _ he', hstop⟩ :
        ∃ e' ∈ e :: rest, StopsWithin builtins env e' _)
    exact hfirst.bind fun _ => hrest.bind fun _ => failsOnly_ok _

end

/-! ## Statements -/

/-- Why a run of a tree has halted: it is out of fuel, or a node stops in the state that it has
reached, or a bound of a loop over a range has a value there that is no integer. -/
inductive HaltsWithin (builtins : Builtins) (t : Tree) : Halt → Prop
  | outOfFuel (s : State) : HaltsWithin builtins t ⟨.error .outOfFuel, s⟩
  | expression {s : State} {stop : Stop Diagnostic} :
      StopsWithin builtins s.environment t stop → HaltsWithin builtins t (s.halt stop)
  | bound {s : State} {span : Span} {iterator : Ident} {first stop body e : Tree} {v : Value} :
      IsNode (.forRange span iterator first stop body) t → e = first ∨ e = stop →
      e.eval builtins s.environment = .ok v → v.integer? = none →
        HaltsWithin builtins t ⟨.ok ⟨.notAnInteger v.typeName, e.span.start⟩, s⟩

/-- What halts within a part halts within the whole. -/
theorem HaltsWithin.of_part {h : Halt} (hc : c ∈ t.parts) (hh : HaltsWithin builtins c h) :
    HaltsWithin builtins t h := by
  cases hh with
  | outOfFuel s => exact .outOfFuel s
  | expression hstop => exact .expression (hstop.of_part hc)
  | bound hn he hv hnone => exact .bound (.part hc hn) he hv hnone

/-- What halts within a part of a tree halts within the tree. -/
theorem haltsWithin_part {α : Type} {x : Except Halt α}
    (h : FailsOnly (HaltsWithin builtins c) x) (hc : c ∈ t.parts) :
    FailsOnly (HaltsWithin builtins t) x :=
  h.mono fun _ => .of_part hc

end Tree

theorem State.eval_eq_ok {builtins : Builtins} {s : State} {e : Tree} {v : Value} :
    s.eval builtins e = .ok v ↔ e.eval builtins s.environment = .ok v :=
  mapError_eq_ok

namespace State

variable {builtins : Builtins} (s : State)

/-- An expression halts within itself. -/
theorem eval_haltsWithin (e : Tree) :
    FailsOnly (Tree.HaltsWithin builtins e) (s.eval builtins e) :=
  (Tree.eval_stopsWithin s.environment e).mapError fun _ => .expression

theorem test_haltsWithin (condition : Tree) :
    FailsOnly (Tree.HaltsWithin builtins condition) (s.test builtins condition) :=
  (s.eval_haltsWithin condition).map

/-- A bound of a loop over a range halts within the loop. -/
theorem bound_haltsWithin {span : Span} {iterator : Ident} {first stop body e : Tree}
    (he : e = first ∨ e = stop) :
    FailsOnly (Tree.HaltsWithin builtins (.forRange span iterator first stop body))
      (s.bound builtins e) := by
  have hpart : e ∈ (Tree.forRange span iterator first stop body).parts := by
    obtain rfl | rfl := he <;> simp [Tree.parts]
  refine (Tree.haltsWithin_part (s.eval_haltsWithin e) hpart).bind_ok fun v hv => ?_
  split
  · exact failsOnly_ok _
  next hnone =>
    exact failsOnly_error (.bound .self he (State.eval_eq_ok.mp hv) hnone)

end State

namespace Tree

variable {builtins : Builtins} {fuel : Nat}

mutual

/-- A run of a statement halts within the statement. -/
theorem exec_haltsWithin : ∀ (t : Tree) (s : State),
    FailsOnly (HaltsWithin builtins t) (exec builtins fuel t s)
  | .block span statements, s => by
    rw [exec]
    refine ((execAll_haltsWithin statements s none).mono fun _ h => ?_).bind fun _ => failsOnly_ok _
    obtain ⟨t, ht, hh⟩ := h
    exact hh.of_part ht
  | .assign span target value, s => by
    rw [exec]
    exact (haltsWithin_part (s.eval_haltsWithin value) (by simp [parts])).bind
      fun _ => failsOnly_ok _
  | .ifThen span condition body, s => by
    rw [exec]
    refine (haltsWithin_part (s.test_haltsWithin condition) (by simp [parts])).bind fun holds => ?_
    split
    · exact (haltsWithin_part (exec_haltsWithin body s) (by simp [parts])).bind
        fun _ => failsOnly_ok _
    · exact failsOnly_ok _
  | .ifElse span condition body otherwise, s => by
    rw [exec]
    refine (haltsWithin_part (s.test_haltsWithin condition) (by simp [parts])).bind fun holds => ?_
    split
    · exact (haltsWithin_part (exec_haltsWithin body s) (by simp [parts])).bind
        fun _ => failsOnly_ok _
    · exact (haltsWithin_part (exec_haltsWithin otherwise s) (by simp [parts])).bind
        fun _ => failsOnly_ok _
  | .forRange span iterator first stop body, s => by
    rw [exec]
    refine (s.bound_haltsWithin (.inl rfl)).bind fun a => ?_
    refine (s.bound_haltsWithin (.inr rfl)).bind fun z => ?_
    -- what holds of the halts of one round holds of those of all rounds
    refine (forEach_failsOnly (fun i s => ?_) _ _ s).bind fun _ => failsOnly_ok _
    exact (haltsWithin_part (exec_haltsWithin body _) (by simp [parts])).bind
      fun _ => failsOnly_ok _
  | .whileLoop span condition body, s => by
    rw [exec]
    refine (repeatWhile_failsOnly .outOfFuel (fun s => ?_) (fun s => ?_) fuel s).bind
      fun _ => failsOnly_ok _
    · exact haltsWithin_part (s.test_haltsWithin condition) (by simp [parts])
    · exact (haltsWithin_part (exec_haltsWithin body s) (by simp [parts])).bind
        fun _ => failsOnly_ok _
  | .print span argument, s => by
    rw [exec]
    exact (haltsWithin_part (s.eval_haltsWithin argument) (by simp [parts])).bind
      fun _ => failsOnly_ok _
  | .number .., s | .boolean .., s | .string .., s | .reference .., s | .binary .., s
  | .list .., s | .call .., s => by
    simp only [exec]
    exact (s.eval_haltsWithin _).bind fun _ => failsOnly_ok _

/-- A run of statements halts within one of them. -/
theorem execAll_haltsWithin : ∀ (ts : List Tree) (s : State) (value : Option Value),
    FailsOnly (fun h => ∃ t ∈ ts, HaltsWithin builtins t h) (execAll builtins fuel ts s value)
  | [], s, value => by
    rw [execAll]
    exact failsOnly_ok _
  | t :: rest, s, value => by
    rw [execAll]
    have hfirst := (exec_haltsWithin t s).mono fun _ h =>
      (⟨t, List.mem_cons_self, h⟩ : ∃ t' ∈ t :: rest, HaltsWithin builtins t' _)
    refine hfirst.bind fun reached => (execAll_haltsWithin rest _ _).mono fun _ h => ?_
    obtain ⟨t', ht', hh⟩ := h
    exact ⟨t', List.mem_cons_of_mem _ ht', hh⟩

end

/-! ## Diagnostics -/

/-- The diagnostics that a node can cause. -/
inductive CanCause (builtins : Builtins) : Tree → Diagnostic → Prop
  | reference (span : Span) (name : Text) :
      CanCause builtins (.reference span name) ⟨.undefinedName name, span.start⟩
  | callee (span : Span) (callee : Ident) (arguments : List Tree) :
      CanCause builtins (.call span callee arguments) ⟨.undefinedName callee.name, span.start⟩
  | arity (span : Span) {callee : Ident} {arguments : List Tree} {f : Builtin} :
      builtins.get? callee.name = some f → arguments.length ≠ f.arity →
        CanCause builtins (.call span callee arguments)
          ⟨.wrongArity callee.name f.arity arguments.length, span.start⟩
  | binary (span : Span) {op : Operator} (left right : Tree) {problem : Problem} :
      op.CanMeet problem → CanCause builtins (.binary span op left right) ⟨problem, span.start⟩
  | bound (span : Span) (iterator : Ident) {first stop : Tree} (body : Tree) {e : Tree}
      (type : TypeName) : e = first ∨ e = stop →
        CanCause builtins (.forRange span iterator first stop body)
          ⟨.notAnInteger type, e.span.start⟩

/-- No node causes an error of the scanner or of the parser. -/
theorem CanCause.kind_ne {n : Tree} {d : Diagnostic} (h : n.CanCause builtins d) :
    d.problem.kind ≠ .lexical ∧ d.problem.kind ≠ .grammatical := by
  cases h with
  | binary span left right hmeet => cases hmeet <;> exact ⟨nofun, nofun⟩
  | _ => exact ⟨nofun, nofun⟩

/-- What a node causes is reported at the start of the node or of one of its parts. -/
theorem CanCause.exists_start {n : Tree} {d : Diagnostic} (h : n.CanCause builtins d) :
    ∃ m, IsNode m n ∧ d.position = m.span.start := by
  cases h with
  | bound span iterator body type he =>
    refine ⟨_, .part ?_ .self, rfl⟩
    obtain rfl | rfl := he <;> simp [parts]
  | _ => exact ⟨_, .self, rfl⟩

/-- What stops at a node is an error that the node can cause. -/
theorem StopsAt.canCause {env : Environment} {t : Tree} {d : Diagnostic}
    (h : StopsAt builtins env t (.problem d)) : CanCause builtins t d := by
  -- the stop is a problem, which rules out the faults among the causes
  generalize hstop : Stop.problem d = stop at h
  cases h with
  | reference span hnone =>
    cases hstop
    exact .reference span _
  | @binary span op left right a b stop ha hb hoperate =>
    cases stop with
    | fault f => cases hstop
    | problem p =>
      cases hstop
      exact .binary span left right (Value.operate_explained op a b _ hoperate)
  | callee span arguments hnone =>
    cases hstop
    exact .callee span _ arguments
  | arity span hf hne =>
    cases hstop
    exact .arity span hf hne
  | statement => cases hstop

/-- What halts within a tree is an error that one of its nodes can cause. -/
theorem HaltsWithin.canCause {t : Tree} {d : Diagnostic} {s : State}
    (h : HaltsWithin builtins t ⟨.ok d, s⟩) : ∃ n, IsNode n t ∧ CanCause builtins n d := by
  generalize hhalt : (⟨.ok d, s⟩ : Halt) = halt at h
  cases h with
  | outOfFuel s => cases hhalt
  | @expression s stop hstop =>
    obtain ⟨n, hn, hstop⟩ := hstop
    cases stop with
    | fault f => cases hhalt
    | problem d =>
      cases hhalt
      exact ⟨n, hn, hstop.canCause⟩
  | bound hn he hv hnone =>
    cases hhalt
    exact ⟨_, hn, .bound _ _ _ _ he⟩

end Tree

/-- What a run halts with is found within its program. -/
theorem Program.haltsWithin {p : Program} {fuel : Nat} {builtins : Builtins} {env : Environment}
    {h : Halt} (hexec : Tree.execAll builtins fuel p.statements (.start env) none = .error h) :
    Tree.HaltsWithin builtins p.toTree h := by
  obtain ⟨t, ht, hh⟩ := Tree.execAll_haltsWithin p.statements _ _ h hexec
  exact hh.of_part (t := p.toTree) ht

/-- A node of the program can cause the diagnostic that a run returns with. -/
theorem Program.exists_canCause {p : Program} {fuel : Nat} {builtins : Builtins}
    {env : Environment} {r : RunResult} (h : p.run fuel builtins env = .ok r) {d : Diagnostic}
    (hd : r.error = some d) : ∃ n, Tree.IsNode n p.toTree ∧ n.CanCause builtins d := by
  obtain ⟨reached, -, rfl⟩ | ⟨d', s, hexec, rfl⟩ := Program.run_eq_ok h
  · cases hd
  · cases hd
    exact (Program.haltsWithin hexec).canCause

/-- A run that returns with a diagnostic has no value, and a node of the program can cause the
diagnostic where it says. -/
theorem Program.canCause_of_returns {p : Program} {builtins : Builtins} {env : Environment}
    {r : RunResult} (h : p.Returns builtins env r) {d : Diagnostic} (hd : r.error = some d) :
    r.value = none ∧ ∃ n, Tree.IsNode n p.toTree ∧ n.CanCause builtins d := by
  obtain ⟨fuel, h⟩ := h
  unfold Program.run at h
  split at h
  · cases h
    cases hd
  next d' s hexec =>
    cases h
    cases hd
    exact ⟨rfl, (Program.haltsWithin hexec).canCause⟩
  · cases h

/-- A loop whose second round calls `str` with two arguments: `for i in range(0, 2)` around
`if i == 1` around `print(str(i, i))`. -/
def strayArgument : Program :=
  let here (line column : Nat) : Span := ⟨⟨line, column⟩, ⟨line, column⟩⟩
  let i (column : Nat) : Tree := .reference (here 3 column) "i"
  ⟨here 1 1, [.forRange (here 1 1) ⟨here 1 5, "i"⟩ (.number (here 1 16) (.int 0))
    (.number (here 1 19) (.int 2))
    (.ifThen (here 2 3)
      (.binary (here 2 6) (.relation .eq) (.reference (here 2 6) "i")
        (.number (here 2 11) (.int 1)))
      (.print (here 3 5) (.call (here 3 11) ⟨here 3 11, "str"⟩ [i 15, i 18])))]⟩

theorem strayArgument_canCause : ∃ r : RunResult,
    strayArgument.Returns .standard .empty r
      ∧ r.error = some ⟨.wrongArity "str" 1 2, ⟨3, 11⟩⟩
      ∧ r.value = none
      ∧ ∃ n, Tree.IsNode n strayArgument.toTree
          ∧ n.CanCause .standard ⟨.wrongArity "str" 1 2, ⟨3, 11⟩⟩ := by
  have hreturns : strayArgument.Returns .standard .empty _ := ⟨1, rfl⟩
  exact ⟨_, hreturns, rfl, Program.canCause_of_returns hreturns rfl⟩

end Plume
