import Plume.Proofs.Remainder

/-!
# What the parser accepts, and where it fails

The parser accepts exactly the scripts of the grammar (`parse_ok_iff_program`), and what it reports
otherwise is the first token with which the tokens read so far begin no script
(`parse_error_iff_firstImpossible`).

Both follow from the step `mem_remainder_cons` by induction on the tokens. The second needs besides
that no remainder is empty (`exists_mem_remainder`): whatever the parser has taken can be completed.
-/

namespace Plume

open Grammar

variable {tokens : List Token} {ks : List TokenKind}

namespace Parser

variable {c c' : Config} {p : TokenKind → Prop} {L M : Language TokenKind}

/-! ## Every configuration can be completed

`True` stands in for each expression, and for each statement, that is still to come.
-/

theorem exists_mem_token_mul (k : TokenKind) (hk : p k) (h : ∃ ks, ks ∈ L) :
    ∃ ks, ks ∈ token p * L := by
  obtain ⟨ks, hks⟩ := h
  exact ⟨k :: ks, cons_mem_token_mul.mpr ⟨hk, hks⟩⟩

theorem exists_mem_exactly_mul (k : TokenKind) (h : ∃ ks, ks ∈ L) : ∃ ks, ks ∈ exactly k * L :=
  exists_mem_token_mul k rfl h

/-- An expression can end behind any of its operands. -/
theorem exists_mem_moreOperands (h : ∃ ks, ks ∈ L) : ∃ ks, ks ∈ moreOperands L := by
  obtain ⟨ks, hks⟩ := h
  rw [moreOperands_eq]
  exact ⟨ks, .inl hks⟩

theorem exists_mem_moreArguments (h : ∃ ks, ks ∈ L) : ∃ ks, ks ∈ moreArguments L := by
  obtain ⟨ks, hks⟩ := h
  rw [moreArguments_eq]
  exact ⟨ks, .inl hks⟩

/-- What is optional can be left out. -/
theorem exists_mem_optional_mul (h : ∃ ks, ks ∈ M) : ∃ ks, ks ∈ (1 + L) * M := by
  obtain ⟨ks, hks⟩ := h
  rw [add_mul, one_mul]
  exact ⟨ks, .inl hks⟩

/-- `True` is an expression that can stand wherever one is needed. -/
theorem true_mem_expression_mul (h : ks ∈ L) : .wordTrue :: ks ∈ phrases .expression * L := by
  rw [cons_mem_expression_mul, moreOperands_eq]
  exact .inl ⟨trivial, .inl h⟩

/-- Wherever an expression is needed there is one. -/
theorem exists_mem_expression_mul (h : ∃ ks, ks ∈ L) : ∃ ks, ks ∈ phrases .expression * L := by
  obtain ⟨ks, hks⟩ := h
  exact ⟨_, true_mem_expression_mul hks⟩

/-- Wherever a sequence is needed there is one. -/
theorem exists_mem_sequence_mul (h : ∃ ks, ks ∈ L) : ∃ ks, ks ∈ phrases .sequence * L := by
  obtain ⟨ks, hks⟩ := h
  refine ⟨.wordTrue :: ks, ?_⟩
  rw [sequence_mul, cons_mem_statement_mul]
  refine .inr (.inl (true_mem_expression_mul ?_))
  rw [moreStatements_eq]
  exact .inl hks

/-- Something can follow a statement, however many bodies are open. -/
theorem exists_mem_afterStatement (awaiting : List Bool) : ∃ ks, ks ∈ afterStatement awaiting :=
  ⟨[.endOfInput], endOfInput_mem_afterStatement.mpr rfl⟩

/-- Something can follow a sequence, however many bodies are open. -/
theorem exists_mem_afterSequence : ∀ awaiting : List Bool, ∃ ks, ks ∈ afterSequence awaiting
  | [] => ⟨[.endOfInput], .endOfInput, rfl, rfl⟩
  | _ :: outer => by
    obtain ⟨ks, hks⟩ := exists_mem_afterStatement outer
    exact ⟨ks, afterStatement_le_afterSequence hks⟩

/-- Every body can be completed. -/
theorem exists_mem_bodyRest (awaitsElse : Bool) (awaiting : List Bool) :
    ∃ ks, ks ∈ bodyRest awaitsElse awaiting :=
  exists_mem_sequence_mul (exists_mem_afterSequence _)

theorem exists_mem_rangeRest (awaiting : List Bool) : ∃ ks, ks ∈ rangeRest awaiting := by
  apply_rules [exists_mem_expression_mul, exists_mem_exactly_mul, exists_mem_bodyRest]

/-- Behind an expression its statement can be completed. -/
theorem exists_mem_purpose (awaiting : List Bool) (purpose : Purpose) :
    ∃ ks, ks ∈ purpose.remainder awaiting := by
  cases purpose with
  | statement | assigned => exact exists_mem_afterStatement awaiting
  | item =>
    exact exists_mem_moreArguments (exists_mem_exactly_mul _ (exists_mem_afterStatement awaiting))
  | compared guard start =>
    refine exists_mem_token_mul (.relation .eq) trivial (exists_mem_expression_mul ?_)
    exact exists_mem_exactly_mul _ (exists_mem_bodyRest _ _)
  | comparand => exact exists_mem_exactly_mul _ (exists_mem_bodyRest _ _)
  | rangeFirst =>
    apply_rules [exists_mem_expression_mul, exists_mem_exactly_mul, exists_mem_bodyRest]
  | rangeStop => apply_rules [exists_mem_exactly_mul, exists_mem_bodyRest]
  | printed => exact exists_mem_exactly_mul _ (exists_mem_afterStatement awaiting)

/-- Every expression that is open can be completed. -/
theorem exists_mem_afterExpression (h : ∃ ks, ks ∈ L) (waiting : List Waiting) :
    ∃ ks, ks ∈ afterExpression L waiting := by
  induction waiting with
  | nil => exact h
  | cons wait waiting ih =>
    cases wait with
    | operator => exact ih
    | group => exact exists_mem_exactly_mul _ (exists_mem_moreOperands ih)
    | argument =>
      exact exists_mem_moreArguments (exists_mem_exactly_mul _ (exists_mem_moreOperands ih))

theorem exists_mem_callRest (h : ∃ ks, ks ∈ L) : ∃ ks, ks ∈ callRest L :=
  exists_mem_optional_mul (exists_mem_exactly_mul _ (exists_mem_moreOperands h))

/-- Whatever has been taken so far can be completed. -/
theorem exists_mem_remainder (c : Config) : ∃ ks, ks ∈ c.remainder := by
  cases c with
  | finished program => exact ⟨[], rfl⟩
  | reading nest phase =>
    -- an open expression can be completed, and then the statement around it, whatever the phase
    have hexpression := fun purpose waiting => exists_mem_afterExpression
      (exists_mem_purpose nest.awaiting purpose) waiting
    cases phase with
    | statement => exact exists_mem_sequence_mul (exists_mem_afterSequence _)
    | operand purpose waiting =>
      obtain ⟨ks, hks⟩ := exists_mem_expression_mul (hexpression purpose waiting)
      exact ⟨ks, .inl hks⟩
    | named purpose waiting name =>
      obtain ⟨ks, hks⟩ := exists_mem_moreOperands (hexpression purpose waiting)
      exact ⟨ks, .inl (.inl hks)⟩
    | callOpened purpose waiting callee => exact exists_mem_callRest (hexpression purpose waiting)
    | operated purpose waiting operand =>
      exact exists_mem_moreOperands (hexpression purpose waiting)
    | assigned target =>
      obtain ⟨ks, hks⟩ := exists_mem_expression_mul (exists_mem_afterStatement nest.awaiting)
      exact ⟨ks, .inl hks⟩
    | listOpened =>
      exact exists_mem_optional_mul (exists_mem_exactly_mul _ (exists_mem_afterStatement _))
    | printWord =>
      exact exists_mem_exactly_mul _ (exists_mem_expression_mul (exists_mem_purpose _ _))
    -- the name of the iterator is the only token that is not fixed
    | forWord =>
      refine exists_mem_token_mul (.name []) trivial ?_
      apply_rules [exists_mem_exactly_mul, exists_mem_rangeRest]
    | forNamed | forIn | forRange => apply_rules [exists_mem_exactly_mul, exists_mem_rangeRest]
    | forClosed | elseWord => exact exists_mem_exactly_mul _ (exists_mem_bodyRest _ _)
    | stated => exact exists_mem_afterStatement _

/-! ## Many tokens -/

/-- Taking tokens takes their kinds off the front of the remainder. -/
theorem mem_remainder_append (h : c.read? tokens = some c') :
    kinds tokens ++ ks ∈ c.remainder ↔ ks ∈ c'.remainder := by
  induction tokens generalizing c with
  | nil =>
    obtain rfl := Option.some.inj h
    rfl
  | cons t rest ih =>
    rw [read?_cons, Option.bind_eq_some_iff] at h
    obtain ⟨next, hnext, hrest⟩ := h
    rw [kinds_cons, List.cons_append, mem_remainder_cons, hnext, remainder?_some]
    exact ih hrest

/-- Before the first token, what may follow is a program. -/
theorem remainder_start : Config.start.remainder = phrases .program := (phrases_eq .program).symm

/-- Tokens that the parser takes begin a script. -/
theorem viable_of_read? (h : Config.start.read? tokens = some c) : Viable (kinds tokens) := by
  obtain ⟨ks, hks⟩ := exists_mem_remainder c
  refine ⟨ks, ?_⟩
  rw [← remainder_start]
  exact (mem_remainder_append h).mpr hks

/-- A token that the parser does not take makes a script impossible. -/
theorem not_viable_of_advance?_eq_none {t : Token} (h : Config.start.read? tokens = some c)
    (ht : c.advance? t = none) : ¬ Viable (kinds (tokens ++ [t])) := by
  rintro ⟨rest, hrest⟩
  rw [← remainder_start, kinds_append, List.append_assoc, mem_remainder_append h] at hrest
  rw [kinds_cons, kinds_nil, List.cons_append, mem_remainder_cons, ht] at hrest
  exact mem_remainder?_none hrest

/-- Tokens that end with the end of input complete a configuration exactly if they are a word of
its remainder. -/
theorem parseFrom_ok_iff_mem_remainder (h : Terminated tokens) :
    (∃ program, parseFrom c tokens = .ok program) ↔ kinds tokens ∈ c.remainder := by
  constructor
  · rintro ⟨program, hok⟩
    have hread := parseFrom_eq_ok.mp hok
    rw [← List.append_nil (kinds tokens), mem_remainder_append hread]
    rfl
  · intro hmem
    cases hparse : parseFrom c tokens with
    | ok program => exact ⟨program, rfl⟩
    | error d =>
      rcases parseFrom_eq_error hparse with ⟨before, t, after, c', rfl, hread, hnone, -⟩
        | ⟨nest, phase, hread⟩
      · rw [kinds_append, mem_remainder_append hread, kinds_cons, mem_remainder_cons, hnone] at hmem
        exact (mem_remainder?_none hmem).elim
      · exact (read?_ne_reading h hread).elim

end Parser

/-- The parser gives a program exactly for the tokens whose kinds the grammar derives. -/
theorem parse_ok_iff_program (h : Terminated tokens) :
    (∃ program, parse tokens = .ok program) ↔ kinds tokens ∈ phrases .program := by
  rw [← Parser.remainder_start]
  exact Parser.parseFrom_ok_iff_mem_remainder h

/-- `if a<b:if b<a:a;b else:f(a,b)`, where the grammar leaves open which `if` the `;` and the `else`
go to. -/
def ambiguousIf : List Token :=
  [⟨.wordIf, [0x69, 0x66], ⟨⟨1, 1⟩, ⟨1, 3⟩⟩⟩, ⟨.name [0x61], [0x61], ⟨⟨1, 4⟩, ⟨1, 5⟩⟩⟩,
    ⟨.relation .lt, [0x3C], ⟨⟨1, 5⟩, ⟨1, 6⟩⟩⟩, ⟨.name [0x62], [0x62], ⟨⟨1, 6⟩, ⟨1, 7⟩⟩⟩,
    ⟨.colon, [0x3A], ⟨⟨1, 7⟩, ⟨1, 8⟩⟩⟩, ⟨.wordIf, [0x69, 0x66], ⟨⟨1, 8⟩, ⟨1, 10⟩⟩⟩,
    ⟨.name [0x62], [0x62], ⟨⟨1, 11⟩, ⟨1, 12⟩⟩⟩, ⟨.relation .lt, [0x3C], ⟨⟨1, 12⟩, ⟨1, 13⟩⟩⟩,
    ⟨.name [0x61], [0x61], ⟨⟨1, 13⟩, ⟨1, 14⟩⟩⟩, ⟨.colon, [0x3A], ⟨⟨1, 14⟩, ⟨1, 15⟩⟩⟩,
    ⟨.name [0x61], [0x61], ⟨⟨1, 15⟩, ⟨1, 16⟩⟩⟩, ⟨.semicolon, [0x3B], ⟨⟨1, 16⟩, ⟨1, 17⟩⟩⟩,
    ⟨.name [0x62], [0x62], ⟨⟨1, 17⟩, ⟨1, 18⟩⟩⟩,
    ⟨.wordElse, [0x65, 0x6C, 0x73, 0x65], ⟨⟨1, 19⟩, ⟨1, 23⟩⟩⟩,
    ⟨.colon, [0x3A], ⟨⟨1, 23⟩, ⟨1, 24⟩⟩⟩, ⟨.name [0x66], [0x66], ⟨⟨1, 24⟩, ⟨1, 25⟩⟩⟩,
    ⟨.openParen, [0x28], ⟨⟨1, 25⟩, ⟨1, 26⟩⟩⟩, ⟨.name [0x61], [0x61], ⟨⟨1, 26⟩, ⟨1, 27⟩⟩⟩,
    ⟨.comma, [0x2C], ⟨⟨1, 27⟩, ⟨1, 28⟩⟩⟩, ⟨.name [0x62], [0x62], ⟨⟨1, 28⟩, ⟨1, 29⟩⟩⟩,
    ⟨.closeParen, [0x29], ⟨⟨1, 29⟩, ⟨1, 30⟩⟩⟩, ⟨.endOfInput, [], ⟨⟨1, 30⟩, ⟨1, 30⟩⟩⟩]

theorem ambiguousIf_mem_program :
    Terminated ambiguousIf ∧ kinds ambiguousIf ∈ phrases .program := by
  have h : Terminated ambiguousIf :=
    ⟨⟨ambiguousIf.dropLast, ⟨.endOfInput, [], ⟨⟨1, 30⟩, ⟨1, 30⟩⟩⟩, rfl, rfl⟩, by decide⟩
  exact ⟨h, (parse_ok_iff_program h).mp ⟨_, rfl⟩⟩

/-! ## The first impossible token -/

/-- The tokens `before` begin a script, and with the next token `t` they do not. -/
structure FirstImpossible (tokens before : List Token) (t : Token) : Prop where
  begins : before ++ [t] <+: tokens
  viable : Viable (kinds before)
  impossible : ¬ Viable (kinds (before ++ [t]))

/-- The beginning of a list of tokens that can go on can go on itself. -/
theorem viable_of_begins {first second : List Token} (hle : first <+: second)
    (h : Viable (kinds second)) : Viable (kinds first) := by
  obtain ⟨rest, rfl⟩ := hle
  rw [kinds_append] at h
  exact h.of_append

/-- No first impossible token comes before another. -/
theorem FirstImpossible.length_le {before before' : List Token} {t t' : Token}
    (h : FirstImpossible tokens before t) (h' : FirstImpossible tokens before' t') :
    before'.length ≤ before.length := by
  by_contra hlt
  -- otherwise the impossible beginning is part of the viable one
  have hbegins : before ++ [t] <+: before' := by
    refine List.prefix_of_prefix_length_le h.begins
      ((List.prefix_append before' [t']).trans h'.begins) ?_
    rw [List.length_append, List.length_singleton]
    omega
  exact h.impossible (viable_of_begins hbegins h'.viable)

/-- There is at most one first impossible token. -/
theorem FirstImpossible.unique {before before' : List Token} {t t' : Token}
    (h : FirstImpossible tokens before t) (h' : FirstImpossible tokens before' t') : t = t' := by
  have hlength : (before ++ [t]).length = (before' ++ [t']).length := by
    rw [List.length_append, List.length_append, List.length_singleton, List.length_singleton]
    exact congrArg (· + 1) (le_antisymm (h'.length_le h) (h.length_le h'))
  have heq : before ++ [t] = before' ++ [t'] :=
    (List.prefix_of_prefix_length_le h.begins h'.begins hlength.le).eq_of_length hlength
  exact (List.append_singleton_inj.mp heq).2

/-! ## Diagnostics -/

/-- The token that a diagnostic names: its text and its kind. -/
def Diagnostic.token? (d : Diagnostic) : Option (Text × TokenKind) :=
  match d.problem with
  | .unexpectedToken text kind => some (text, kind)
  | _ => none

/-- The diagnostic is a syntax error at the token `t`. It names the token, unless that is the end of
input. -/
structure Diagnostic.Reports (d : Diagnostic) (t : Token) : Prop where
  kind : d.problem.kind = .grammatical
  position : d.position = t.span.start
  token : d.token? = if t.kind = .endOfInput then none else some (t.text, t.kind)

/-- The error at a token names that token. -/
theorem Token.reports_unexpected (t : Token) : t.unexpected.Reports t := by
  unfold Token.unexpected
  split
  next h => exact ⟨rfl, rfl, by rw [h]; rfl⟩
  next h => exact ⟨rfl, rfl, by rw [if_neg h]; rfl⟩

/-- A token has only one report. -/
theorem Diagnostic.Reports.eq_unexpected {d : Diagnostic} {t : Token} (h : d.Reports t) :
    d = t.unexpected := by
  obtain ⟨problem, position⟩ := d
  obtain ⟨hkind, rfl, htoken⟩ := h
  cases problem with
  | unexpectedToken text kind =>
    -- only the end of input is reported without its text
    by_cases ht : t.kind = .endOfInput
    · simp [Diagnostic.token?, ht] at htoken
    · simp only [Diagnostic.token?, if_neg ht, Option.some.injEq, Prod.mk.injEq] at htoken
      obtain ⟨rfl, rfl⟩ := htoken
      unfold Token.unexpected
      split
      next hend => exact absurd hend ht
      next => rfl
  | unexpectedEnd =>
    by_cases ht : t.kind = .endOfInput
    · rw [Token.unexpected, ht]
    · simp [Diagnostic.token?, ht] at htoken
  | _ => cases hkind

/-- A parse that fails reports the first impossible token. -/
theorem firstImpossible_of_parse_error {d : Diagnostic} (h : Terminated tokens)
    (herror : parse tokens = .error d) :
    ∃ before t, FirstImpossible tokens before t ∧ d.Reports t := by
  rcases Parser.parseFrom_eq_error herror with ⟨before, t, after, c, rfl, hread, hnone, rfl⟩
    | ⟨nest, phase, hread⟩
  · refine ⟨before, t, ⟨?_, Parser.viable_of_read? hread,
      Parser.not_viable_of_advance?_eq_none hread hnone⟩, t.reports_unexpected⟩
    exact ⟨after, by simp⟩
  · exact (Parser.read?_ne_reading h hread).elim

/-- The parser gives either a program or one diagnostic, and it gives the diagnostic `d` exactly if
some token is the first impossible one and `d` is its report. -/
theorem parse_error_iff_firstImpossible (h : Terminated tokens) (d : Diagnostic) :
    parse tokens = .error d ↔ ∃ before t, FirstImpossible tokens before t ∧ d.Reports t := by
  constructor
  · exact firstImpossible_of_parse_error h
  · rintro ⟨before, t, hfirst, hreports⟩
    cases hparse : parse tokens with
    | ok program =>
      -- an accepted list is a script, so all its beginnings are viable
      have hmem := (Parser.parseFrom_ok_iff_mem_remainder h).mp ⟨program, hparse⟩
      rw [Parser.remainder_start] at hmem
      have hviable : Viable (kinds tokens) := ⟨[], by rwa [List.append_nil]⟩
      exact (hfirst.impossible (viable_of_begins hfirst.begins hviable)).elim
    | error d' =>
      obtain ⟨before', t', hfirst', hreports'⟩ := firstImpossible_of_parse_error h hparse
      rw [hreports.eq_unexpected, hreports'.eq_unexpected, hfirst.unique hfirst']

/-- `a = [a else`, which no `]` can save. -/
def unclosedList : List Token :=
  [⟨.name [0x61], [0x61], ⟨⟨1, 1⟩, ⟨1, 2⟩⟩⟩, ⟨.assign, [0x3D], ⟨⟨1, 3⟩, ⟨1, 4⟩⟩⟩,
    ⟨.openBracket, [0x5B], ⟨⟨1, 5⟩, ⟨1, 6⟩⟩⟩, ⟨.name [0x61], [0x61], ⟨⟨1, 6⟩, ⟨1, 7⟩⟩⟩,
    ⟨.wordElse, [0x65, 0x6C, 0x73, 0x65], ⟨⟨1, 8⟩, ⟨1, 12⟩⟩⟩,
    ⟨.endOfInput, [], ⟨⟨1, 12⟩, ⟨1, 12⟩⟩⟩]

theorem unclosedList_firstImpossible :
    Terminated unclosedList ∧ ∃ before t, FirstImpossible unclosedList before t
      ∧ Diagnostic.Reports ⟨.unexpectedToken [0x65, 0x6C, 0x73, 0x65] .wordElse, ⟨1, 8⟩⟩ t := by
  have h : Terminated unclosedList :=
    ⟨⟨unclosedList.dropLast, ⟨.endOfInput, [], ⟨⟨1, 12⟩, ⟨1, 12⟩⟩⟩, rfl, rfl⟩, by decide⟩
  exact ⟨h, (parse_error_iff_firstImpossible h _).mp rfl⟩

end Plume
