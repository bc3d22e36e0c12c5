import Plume.Proofs.Binding

/-!
# What the values of a run have in common

A property of values is kept by a run if nothing that the run does leads out of it: not its
literals, not its operators and lists, not the functions that it calls. It then holds of every value
that is bound, produced or returned, at every moment of the run (`Program.keeps_of_closed`).

## Shape of the proof

`Tree.Closed` collects what a property needs of a tree and its functions, for each kind of node. The
value of an expression has the property by induction on the expression (`Tree.eval_of_closed`), and
a binding adds no other value to an environment, so that whole runs keep it. What an operator can
give is said once, by `Value.operate_yields`.
-/

namespace Plume

/-! ## Values in values -/

namespace Value

/-- The value is the other one, or is in it at some depth of its lists. -/
inductive IsIn (v : Value) : Value → Prop
  | self : IsIn v v
  | item {w : Value} {items : List Value} : w ∈ items → IsIn v w → IsIn v (.list items)

/-- A property holds of a value, and of all that is in it. -/
def Everywhere (P : Value → Prop) (v : Value) : Prop := ∀ w, w.IsIn v → P w

variable {P : Value → Prop}

/-- Something holds everywhere in a list if it holds of the list and everywhere in its items. -/
theorem everywhere_list {items : List Value} :
    Everywhere P (.list items) ↔ P (.list items) ∧ ∀ v ∈ items, Everywhere P v := by
  constructor
  · intro h
    exact ⟨h _ .self, fun v hv w hw => h w (.item hv hw)⟩
  · rintro ⟨hlist, hitems⟩ w hw
    cases hw with
    | self => exact hlist
    | item hv hw => exact hitems _ hv w hw

/-- Nothing else is in a value that is no list. -/
theorem everywhere_of_ne_list {v : Value} (hv : ∀ items, v ≠ .list items) (h : P v) :
    Everywhere P v := by
  intro w hw
  cases hw with
  | self => exact h
  | @item v items hmem hw => exact absurd rfl (hv items)

theorem everywhere_number {n : Number} (h : P (.number n)) : Everywhere P (.number n) :=
  everywhere_of_ne_list (by rintro items ⟨⟩) h

theorem everywhere_bool {b : Bool} (h : P (.bool b)) : Everywhere P (.bool b) :=
  everywhere_of_ne_list (by rintro items ⟨⟩) h

theorem everywhere_str {t : Text} (h : P (.str t)) : Everywhere P (.str t) :=
  everywhere_of_ne_list (by rintro items ⟨⟩) h

end Value

/-! ## What operators give -/

namespace Value

/-- What an operator can give for two operands. -/
inductive Yields : Operator → Value → Value → Value → Prop
  | truth (op : Relation) (a b : Value) (holds : Bool) : Yields (.relation op) a b (.bool holds)
  | number {op : Arithmetic} {a b : Value} {m n k : Number} :
      a.number? = some m → b.number? = some n → Number.calculate? op m n = some k →
        Yields (.arithmetic op) a b (.number k)
  | joinedText {s t : Text} : s.length + t.length ≤ maxSequenceLength →
      Yields (.arithmetic .add) (.str s) (.str t) (.str (s ++ t))
  | joinedList {xs ys : List Value} : xs.length + ys.length ≤ maxSequenceLength →
      Yields (.arithmetic .add) (.list xs) (.list ys) (.list (xs ++ ys))
  | repeatedText {a b : Value} {t : Text} {count : Nat} : a = .str t ∨ b = .str t →
      t.length * count ≤ maxSequenceLength →
        Yields (.arithmetic .mul) a b (.str (repeated count t))
  | repeatedList {a b : Value} {items : List Value} {count : Nat} :
      a = .list items ∨ b = .list items → items.length * count ≤ maxSequenceLength →
        Yields (.arithmetic .mul) a b (.list (repeated count items))

variable {a b v : Value}

/-- What comes behind the check of a length has passed it. -/
theorem le_of_checkLength {length : Nat} {f : Unit → Except (Stop Problem) Value}
    (h : checkLength length >>= f = .ok v) : length ≤ maxSequenceLength ∧ f () = .ok v := by
  obtain ⟨_, hlength, hf⟩ := bind_eq_ok.mp h
  exact ⟨checkLength_eq_ok hlength, hf⟩

/-- What a repetition yields. -/
theorem times?_yields {sequence : Value} (hsequence : a = sequence ∨ b = sequence) {count : Int}
    (h : sequence.times? count = some (.ok v)) : Yields (.arithmetic .mul) a b v := by
  cases sequence with
  | str t =>
    obtain ⟨hlength, h⟩ := le_of_checkLength (Option.some.inj h)
    split at h
    · cases h
    · cases h
      exact .repeatedText hsequence hlength
  | list items =>
    obtain ⟨hlength, h⟩ := le_of_checkLength (Option.some.inj h)
    split at h
    · cases h
    · cases h
      exact .repeatedList hsequence hlength
  | number n => cases h
  | bool b => cases h

/-- What a joining yields. -/
theorem append?_yields (h : a.append? b = some (.ok v)) : Yields (.arithmetic .add) a b v := by
  unfold append? at h
  split at h
  · obtain ⟨hlength, h⟩ := le_of_checkLength (Option.some.inj h)
    cases h
    exact .joinedText hlength
  · obtain ⟨hlength, h⟩ := le_of_checkLength (Option.some.inj h)
    cases h
    exact .joinedList hlength
  · cases h

/-- What an operator yields on texts and lists. -/
theorem combine?_yields {op : Arithmetic} (h : combine? op a b = some (.ok v)) :
    Yields (.arithmetic op) a b v := by
  unfold combine? at h
  split at h
  · exact append?_yields h
  · split at h
    · exact times?_yields (.inl rfl) h
    · exact times?_yields (.inr rfl) h
    · cases h
  · cases h

/-- What an arithmetic operator yields. -/
theorem calculate_yields {op : Arithmetic} (h : calculate op a b = .ok v) :
    Yields (.arithmetic op) a b v := by
  unfold calculate at h
  split at h
  next m n hm hn =>
    split at h
    next k hk =>
      cases h
      exact .number hm hn hk
    · cases h
  · cases hcombine : combine? op a b with
    | none =>
      rw [hcombine] at h
      cases h
    | some r =>
      rw [hcombine] at h
      exact combine?_yields (hcombine.trans (congrArg some h))

/-- Every value of an operator is one that it can give. -/
theorem operate_yields {op : Operator} (h : operate op a b = .ok v) : Yields op a b v := by
  cases op with
  | arithmetic op => exact calculate_yields h
  | relation op =>
    obtain ⟨holds, -, rfl⟩ := map_eq_ok.mp (mapError_eq_ok.mp h)
    exact .truth op a b holds

/-- What is in the value of an operator is the value itself, or is in an operand. -/
theorem Everywhere.of_yields {P : Value → Prop} {op : Operator} (ha : Everywhere P a)
    (hb : Everywhere P b) (h : Yields op a b v) (hv : P v) : Everywhere P v := by
  cases h with
  | truth op a b holds => exact everywhere_bool hv
  | number hm hn hk => exact everywhere_number hv
  | joinedText _ | repeatedText _ _ => exact everywhere_str hv
  | joinedList _ =>
    refine everywhere_list.mpr ⟨hv, List.forall_mem_append.mpr ⟨?_, ?_⟩⟩
    · exact (everywhere_list.mp ha).2
    · exact (everywhere_list.mp hb).2
  | @repeatedList a b items count hoperand _ =>
    have hitems : Everywhere P (.list items) := by
      obtain rfl | rfl := hoperand
      · exact ha
      · exact hb
    refine everywhere_list.mpr ⟨hv, fun w hw => ?_⟩
    exact (everywhere_list.mp hitems).2 w (mem_of_mem_repeated hw)

end Value

/-! ## Expressions -/

/-- All values that are bound have a property. -/
def Environment.Holds (P : Value → Prop) (env : Environment) : Prop :=
  ∀ x v, env.get? x = some v → P v

theorem Environment.holds_empty {P : Value → Prop} : Environment.empty.Holds P := by
  rintro x v ⟨⟩

/-- One more variable, with a value of which it holds. -/
theorem Environment.Holds.insert {P : Value → Prop} {env : Environment} (h : env.Holds P) (x : Text)
    {v : Value} (hv : P v) : (env.insert x v).Holds P := by
  intro y w hw
  rw [get?_insert] at hw
  split at hw
  · cases hw
    exact hv
  · exact h y w hw

/-- Functions that have a value with the property wherever their arguments have it. -/
def Builtins.Keep (P : Value → Prop) (builtins : Builtins) : Prop :=
  ∀ name f, builtins.get? name = some f → ∀ arguments, (∀ i, P (arguments i)) → P (f.call arguments)

namespace Tree

variable {builtins : Builtins} {env : Environment} {P : Value → Prop} {t : Tree}

/-- A property of values that the nodes of a tree and the functions do not lead out of. -/
structure Closed (builtins : Builtins) (P : Value → Prop) (t : Tree) : Prop where
  number : ∀ span n, IsNode (.number span n) t → P (.number n)
  int : ∀ i, P (.int i)
  bool : ∀ b, P (.bool b)
  string : ∀ span text, IsNode (.string span text) t → P (.str text)
  list : ∀ span items values, IsNode (.list span items) t → values.length = items.length →
    (∀ v ∈ values, P v) → P (.list values)
  operate : ∀ span op left right a b v, IsNode (.binary span op left right) t → P a → P b →
    Value.Yields op a b v → P v
  call : builtins.Keep P

mutual

/-- The value of an expression has every property that the nodes of the tree around it keep. -/
theorem eval_of_closed (hclosed : Closed builtins P t) (henv : env.Holds P) :
    ∀ (e : Tree) (v : Value), IsNode e t → e.eval builtins env = .ok v → P v
  | .number span n, v, he, hv => by
    cases hv
    exact hclosed.number span n he
  | .boolean span b, v, he, hv => by
    cases hv
    exact hclosed.bool b
  | .string span text, v, he, hv => by
    cases hv
    exact hclosed.string span text he
  | .reference span name, v, he, hv => by
    rw [eval] at hv
    split at hv
    next w hw =>
      cases hv
      exact henv name v hw
    · cases hv
  | .binary span op left right, v, he, hv => by
    rw [eval, bind_eq_ok] at hv
    obtain ⟨a, ha, hv⟩ := hv
    rw [bind_eq_ok] at hv
    obtain ⟨b, hb, hv⟩ := hv
    have hleft : P a := eval_of_closed hclosed henv left a (he.of_part (by simp [parts])) ha
    have hright : P b := eval_of_closed hclosed henv right b (he.of_part (by simp [parts])) hb
    exact hclosed.operate span op left right a b v he hleft hright
      (Value.operate_yields (mapError_eq_ok.mp hv))
  | .list span items, v, he, hv => by
    rw [eval, bind_eq_ok] at hv
    obtain ⟨values, hvalues, hv⟩ := hv
    cases hv
    exact hclosed.list span items values he (length_of_evalAll hvalues)
      (evalAll_of_closed hclosed henv items values (fun _ => he.of_part) hvalues)
  -- a function is applied only to as many arguments as it takes
  | .call span callee arguments, v, he, hv => by
    rw [eval] at hv
    split at hv
    next f hf =>
      rw [bind_eq_ok] at hv
      obtain ⟨values, hvalues, hv⟩ := hv
      have happly := mapError_eq_ok.mp hv
      unfold Builtin.apply at happly
      split at happly
      · cases happly
        refine hclosed.call _ f hf _ fun i => ?_
        exact evalAll_of_closed hclosed henv arguments values (fun _ => he.of_part) hvalues _
          (List.get_mem values _)
      · cases happly
    · cases hv
  -- a statement inside an expression has no value
  | .block .., v, _, hv | .assign .., v, _, hv | .ifThen .., v, _, hv | .ifElse .., v, _, hv
  | .forRange .., v, _, hv | .whileLoop .., v, _, hv | .print .., v, _, hv => by
    simp only [eval] at hv
    cases hv

/-- What is closed under all that a tree does holds of the values of its expressions. -/
theorem evalAll_of_closed (hclosed : Closed builtins P t) (henv : env.Holds P) :
    ∀ (es : List Tree) (values : List Value), (∀ e ∈ es, IsNode e t) →
      evalAll builtins env es = .ok values → ∀ v ∈ values, P v
  | [], values, _, hvalues => by
    rw [evalAll] at hvalues
    cases hvalues
    exact fun v hv => absurd hv List.not_mem_nil
  | e :: rest, values, hes, hvalues => by
    obtain ⟨he, hrest⟩ := List.forall_mem_cons.mp hes
    rw [evalAll, bind_eq_ok] at hvalues
    obtain ⟨v, hv, hvalues⟩ := hvalues
    rw [bind_eq_ok] at hvalues
    obtain ⟨vs, hvs, hvalues⟩ := hvalues
    cases hvalues
    exact List.forall_mem_cons.mpr ⟨eval_of_closed hclosed henv e v he hv,
      evalAll_of_closed hclosed henv rest vs hrest hvs⟩

end

end Tree

/-! ## Runs -/

namespace Program

variable {builtins : Builtins} {env : Environment} {P : Value → Prop} {p : Program}

/-- A property that all values of a run have: those that are bound at some moment, those that
expressions of the program have at some moment, and those that the run returns. -/
structure Keeps (builtins : Builtins) (env : Environment) (P : Value → Prop) (p : Program) :
    Prop where
  bound : ∀ s, p.Passes builtins env s → s.environment.Holds P
  produced : ∀ s e v, p.Passes builtins env s → Tree.IsNode e p.toTree →
    e.eval builtins s.environment = .ok v → P v
  returned : ∀ r, p.Returns builtins env r →
    r.environment.Holds P ∧ ∀ v, r.value = some v → P v

/-- A binding of a program adds a value with the property. -/
theorem holds_of_passes (hclosed : p.toTree.Closed builtins P) (henv : env.Holds P) {s : State}
    (hs : p.Passes builtins env s) : s.environment.Holds P := by
  refine environment_induction henv ?_ hs
  intro e x v he hbinds
  refine he.insert x ?_
  cases hbinds with
  | @assign span target value v hn hv =>
    exact Tree.eval_of_closed hclosed he value v (hn.of_part (by simp [Tree.parts])) hv
  | iterator i hn => exact hclosed.int i

/-- A run keeps what its program, its functions and its environment do not lead out of. -/
theorem keeps_of_closed (hclosed : p.toTree.Closed builtins P) (henv : env.Holds P) :
    p.Keeps builtins env P where
  bound _ hs := holds_of_passes hclosed henv hs
  produced _ e v hs he hv := Tree.eval_of_closed hclosed (holds_of_passes hclosed henv hs) e v he hv
  returned r hr := by
    constructor
    · obtain ⟨s, hs, -, henvironment⟩ := passes_of_returns hr
      exact henvironment ▸ holds_of_passes hclosed henv hs
    · intro v hv
      obtain ⟨s, e, hs, he, heval⟩ := exists_eval_of_returns hr hv
      exact Tree.eval_of_closed hclosed (holds_of_passes hclosed henv hs) e v he heval

end Program

end Plume
