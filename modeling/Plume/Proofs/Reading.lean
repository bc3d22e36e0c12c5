import Mathlib.Data.List.Induction
import Plume.Proofs.Moves

/-!
# Reading tokens one after another

What a single token does to a configuration, and what a list of them does. `Config.read?` is the
parser without its diagnostics: `parseFrom_eq_ok` and `parseFrom_eq_error` say what the parser makes
of it, and `start_read?_induction` is the induction over all that the parser can have read.
-/

namespace Plume

/-! ## Lists of tokens -/

/-- The kinds of tokens. -/
def kinds (tokens : List Token) : List TokenKind := tokens.map (·.kind)

@[simp]
theorem kinds_nil : kinds [] = [] := rfl

@[simp]
theorem kinds_cons (t : Token) (rest : List Token) : kinds (t :: rest) = t.kind :: kinds rest := rfl

@[simp]
theorem kinds_append (first second : List Token) :
    kinds (first ++ second) = kinds first ++ kinds second := List.map_append

/-- The end of input stands among the tokens once, as the last of them. -/
structure Terminated (tokens : List Token) : Prop where
  last : ∃ body stop, tokens = body ++ [stop] ∧ stop.kind = .endOfInput
  once : (kinds tokens).count .endOfInput = 1

namespace Parser

variable {c c' : Config} {t : Token} {tokens : List Token} {nest : Nest} {purpose : Purpose}
  {waiting : List Waiting} {operand : Tree}

/-! ## One token -/

/-- Once every operator has taken its operand, none waits on top. -/
theorem giveOperand_ne_operator (waiting : List Waiting) (operand left : Tree) (op : Arithmetic)
    (rest : List Waiting) :
    (giveOperand (fun _ => true) waiting operand).1 ≠ .operator left op :: rest := by
  fun_induction giveOperand (fun _ => true) waiting operand with
  | case1 left op waiting operand htakes ih => exact ih
  | case2 left op waiting operand htakes => exact absurd rfl htakes
  | case3 waiting operand hwaiting => exact fun h => hwaiting left op rest h

/-- The end of input is taken behind every statement. -/
theorem afterStatement?_endOfInput (s : Tree) (ht : t.kind = .endOfInput) :
    afterStatement? nest s t = some (.finished (closeAll nest.outer nest.before s)) := by
  rw [afterStatement?, ht]

/-- Behind an operand the end of input is only taken where it ends a statement. -/
theorem TakesAfter.eq_completes {move : Move} (h : TakesAfter t purpose waiting operand move)
    (ht : t.kind = .endOfInput) : ∃ s, move = .completes s := by
  cases h with
  | expression _ h =>
    cases h with
    | statement => exact ⟨_, rfl⟩
    | assigned => exact ⟨_, rfl⟩
    | _ => simp_all
  | _ => simp_all

/-- The end of input is only taken where it ends a statement. -/
theorem Phase.Takes.eq_completes {phase : Phase} {move : Move} (h : phase.Takes t move)
    (ht : t.kind = .endOfInput) : ∃ s, move = .completes s := by
  cases h with
  | stated => exact ⟨_, rfl⟩
  | afterName _ h => exact h.eq_completes ht
  | afterOperand h => exact h.eq_completes ht
  | operand _ h => simp [startOperand?, ht] at h
  | guard guard h => cases guard <;> simp_all [Guard.word]
  | _ => simp_all

/-- The end of input is taken only if it completes a program. -/
theorem advance?_endOfInput (h : c.advance? t = some c') (ht : t.kind = .endOfInput) :
    ∃ program, c' = .finished program := by
  obtain ⟨nest, phase, move, rfl, htakes, hrun⟩ := exists_takes h
  obtain ⟨s, rfl⟩ := htakes.eq_completes ht
  exact ⟨_, (Option.some.inj ((afterStatement?_endOfInput s ht).symm.trans hrun)).symm⟩

/-! ## The end of a program -/

variable {program : Program}

/-- An `else` ends no program. -/
theorem closeToElse_ne_finished (outer : List OpenBody) (before : List Tree) (last : Tree) :
    closeToElse outer before last ≠ some (.finished program) := by
  induction outer generalizing before last with
  | nil => exact nofun
  | cons b outer ih =>
    obtain ⟨head, around⟩ := b
    cases head with
    | ifThen start condition => exact nofun
    | _ => exact ih _ _

/-- Only the end of input ends a program, and it closes all that is open. -/
theorem afterStatement?_eq_finished {s : Tree}
    (h : afterStatement? nest s t = some (.finished program)) :
    t.kind = .endOfInput ∧ program = closeAll nest.outer nest.before s := by
  unfold afterStatement? at h
  split at h
  · cases h
  · exact absurd h (closeToElse_ne_finished _ _ _)
  next hk =>
    cases h
    exact ⟨hk, rfl⟩
  · cases h

/-- A `;` or the end of input finds the statement `s` complete, in the sequences `nest`. -/
def Config.Completes (c : Config) (nest : Nest) (s : Tree) : Prop :=
  ∀ t, t.kind = .semicolon ∨ t.kind = .endOfInput → c.advance? t = afterStatement? nest s t

/-- A statement that one token finds complete behind an operand, `;` and the end of input do. -/
theorem TakesAfter.completes {s : Tree} (h : TakesAfter t purpose waiting operand (.completes s))
    (nest : Nest) : (Config.reading nest (.operated purpose waiting operand)).Completes nest s := by
  intro t' ht'
  cases h with
  | expression hgive h =>
    rw [Config.advance?, Phase.advance?, afterOperand?, hgive]
    rcases ht' with hk | hk <;> rw [hk] <;> cases h <;> rfl

/-- A statement that one token finds complete, `;` and the end of input do. -/
theorem Phase.Takes.completes {phase : Phase} {s : Tree} (h : phase.Takes t (.completes s))
    (nest : Nest) : (Config.reading nest phase).Completes nest s := by
  intro t' ht'
  cases h with
  | stated => rfl
  | afterOperand h => exact h.completes nest t' ht'
  | afterName _ h =>
    rw [← h.completes nest t' ht']
    rcases ht' with hk | hk <;> simp only [Config.advance?, Phase.advance?, hk]

/-- Where a program can end, a statement is complete, and the program is made up of it and of what
is open around it. -/
theorem exists_completes (h : c.advance? t = some (.finished program)) :
    t.kind = .endOfInput ∧ ∃ (nest : Nest) (s : Tree), c.Completes nest s
      ∧ program = closeAll nest.outer nest.before s := by
  obtain ⟨nest, phase, move, rfl, htakes, hrun⟩ := exists_takes h
  cases move with
  | goesOn next => cases hrun
  | opens head => cases hrun
  | completes s =>
    obtain ⟨hk, hprogram⟩ := afterStatement?_eq_finished hrun
    exact ⟨hk, nest, s, htakes.completes nest, hprogram⟩

/-! ## Many tokens -/

/-- The configuration after the given tokens, if all of them can be taken. -/
def Config.read? (c : Config) (tokens : List Token) : Option Config :=
  tokens.foldlM (fun c t => c.advance? t) c

@[simp]
theorem read?_nil : c.read? [] = some c := rfl

theorem read?_cons (t : Token) (rest : List Token) :
    c.read? (t :: rest) = (c.advance? t).bind fun c' => c'.read? rest := rfl

theorem read?_append (first second : List Token) :
    c.read? (first ++ second) = (c.read? first).bind fun c' => c'.read? second :=
  List.foldlM_append

/-- What holds before the first token and is kept by every token that is taken holds of whatever has
been read. -/
theorem start_read?_induction {P : List Token → Config → Prop} (hstart : P [] .start)
    (hstep : ∀ {tokens c t c'}, P tokens c → c.advance? t = some c' → P (tokens ++ [t]) c')
    (h : Config.start.read? tokens = some c) : P tokens c := by
  induction tokens using List.reverseRecOn generalizing c with
  | nil =>
    obtain rfl := Option.some.inj h
    exact hstart
  | append_singleton tokens t ih =>
    rw [read?_append, Option.bind_eq_some_iff] at h
    obtain ⟨c', hc', hlast⟩ := h
    rw [read?_cons, Option.bind_eq_some_iff] at hlast
    obtain ⟨c'', hc'', hnil⟩ := hlast
    obtain rfl := Option.some.inj hnil
    exact hstep (ih hc') hc''

/-- The parser gives a program exactly if all tokens can be taken and the last completes it. -/
theorem parseFrom_eq_ok :
    parseFrom c tokens = .ok program ↔ c.read? tokens = some (.finished program) := by
  induction tokens generalizing c with
  | nil => cases c <;> simp [parseFrom]
  | cons t rest ih =>
    rw [parseFrom, read?_cons]
    cases c.advance? t with
    | none => simp
    | some next => exact ih

/-- The last token of a program is the one that completes it. -/
theorem exists_last (h : parse tokens = .ok program) :
    ∃ body stop c, tokens = body ++ [stop] ∧ Config.start.read? body = some c
      ∧ c.advance? stop = some (.finished program) := by
  have hread := parseFrom_eq_ok.mp h
  rcases List.eq_nil_or_concat tokens with rfl | ⟨body, stop, rfl⟩
  · cases hread
  · rw [List.concat_eq_append] at hread ⊢
    rw [read?_append, Option.bind_eq_some_iff] at hread
    obtain ⟨c, hbody, hstop⟩ := hread
    rw [read?_cons, Option.bind_eq_some_iff] at hstop
    obtain ⟨c', hc', hnil⟩ := hstop
    obtain rfl := Option.some.inj hnil
    exact ⟨body, stop, c, rfl, hbody, hc'⟩

/-- The parser fails at a token that cannot be taken, or for lack of tokens. -/
theorem parseFrom_eq_error {d : Diagnostic} (h : parseFrom c tokens = .error d) :
    (∃ before t after c', tokens = before ++ t :: after ∧ c.read? before = some c'
      ∧ c'.advance? t = none ∧ d = t.unexpected)
    ∨ ∃ nest phase, c.read? tokens = some (.reading nest phase) := by
  induction tokens generalizing c with
  | nil =>
    cases c with
    | reading nest phase => exact .inr ⟨nest, phase, rfl⟩
    | finished program => simp [parseFrom] at h
  -- the error is at the first token, or comes of the rest, and then `t` is one of the tokens before
  -- it
  | cons t rest ih =>
    rw [parseFrom] at h
    cases hnext : c.advance? t with
    | none =>
      rw [hnext] at h
      exact .inl ⟨[], t, rest, c, rfl, rfl, hnext, (Except.error.inj h).symm⟩
    | some next =>
      rw [hnext] at h
      rcases ih h with ⟨before, t', after, c', rfl, hread, hnone, hd⟩ | ⟨nest, phase, hread⟩
      · refine .inl ⟨t :: before, t', after, c', rfl, ?_, hnone, hd⟩
        rw [read?_cons, hnext]
        exact hread
      · refine .inr ⟨nest, phase, ?_⟩
        rw [read?_cons, hnext]
        exact hread

/-- Tokens that end with the end of input do not leave the parser waiting. -/
theorem read?_ne_reading {phase : Phase} (h : Terminated tokens) :
    c.read? tokens ≠ some (.reading nest phase) := by
  obtain ⟨⟨body, stop, rfl, hstop⟩, -⟩ := h
  intro h
  rw [read?_append, Option.bind_eq_some_iff] at h
  obtain ⟨c', -, hlast⟩ := h
  rw [read?_cons, Option.bind_eq_some_iff] at hlast
  obtain ⟨c'', hc'', hnil⟩ := hlast
  obtain ⟨program, rfl⟩ := advance?_endOfInput hc'' hstop
  cases hnil

end Parser

end Plume
