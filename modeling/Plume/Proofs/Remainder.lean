import Plume.Proofs.Grammar
import Plume.Proofs.Reading

/-!
# What the parser still waits for

`Config.remainder` is the language of the token kinds that complete a script from a configuration
on. `mem_remainder_cons` is the one fact about it that matters: the parser takes a token exactly if
the remainder has a word that begins with it, and what the parser goes on with has the rest of those
words as its remainder.

## Shape of the proof

The grammar leaves open to which sequence a statement belongs and to which `if` an `else`. The
parser decides both at once, for the innermost. `semicolon_mem_afterStatement` and
`else_mem_afterStatement_cons` say that this loses nothing: whatever may follow when an outer
sequence takes the token may follow as well when the innermost takes it, since an inner sequence may
always end where an outer one goes on (`afterSequence_le_afterStatement`).
-/

namespace Plume.Parser

open Grammar

variable {k : TokenKind} {ks : List TokenKind} {L M : Language TokenKind}

/-! ## Bodies

All that matters of an open body is whether an `else` may follow it.
-/

/-- Whether an `else` may follow the body behind a head. -/
def Head.awaitsElse : Head → Bool
  | .ifThen .. => true
  | .ifElse .. | .forRange .. | .whileLoop .. => false

/-- Whether an `else` may follow the body behind a condition. -/
def Guard.awaitsElse : Guard → Bool
  | .ifWord => true
  | .whileWord => false

/-- The word before a condition tells whether an `else` can follow. -/
@[simp]
theorem Guard.awaitsElse_head (guard : Guard) (start : Position) (condition : Tree) :
    (guard.head start condition).awaitsElse = guard.awaitsElse := by
  cases guard <;> rfl

/-- For each open body, the innermost first, whether an `else` may follow it. -/
def Nest.awaiting (nest : Nest) : List Bool := nest.outer.map (·.head.awaitsElse)

/-- What may follow a body, with `L` behind its statement. -/
def afterBody (awaitsElse : Bool) (L : Language TokenKind) : Language TokenKind :=
  if awaitsElse then orElse L else L

/-- What may follow the innermost sequence. -/
def afterSequence : List Bool → Language TokenKind
  | [] => exactly .endOfInput
  | awaitsElse :: outer => afterBody awaitsElse (moreStatements (afterSequence outer))

/-- What may follow a statement of the innermost sequence. -/
def afterStatement (awaiting : List Bool) : Language TokenKind :=
  moreStatements (afterSequence awaiting)

/-! ## Expressions -/

/-- What may follow an expression inside the given waiting operators, parentheses and calls, with
`L` behind the whole. -/
def afterExpression (L : Language TokenKind) : List Waiting → Language TokenKind
  | [] => L
  | .operator .. :: waiting => afterExpression L waiting
  | .group :: waiting => exactly .closeParen * moreOperands (afterExpression L waiting)
  | .argument .. :: waiting =>
    moreArguments (exactly .closeParen * moreOperands (afterExpression L waiting))

/-- What may follow the colon before a body. -/
def bodyRest (awaitsElse : Bool) (awaiting : List Bool) : Language TokenKind :=
  phrases .sequence * afterSequence (awaitsElse :: awaiting)

/-- What may follow the parenthesis before a range. -/
def rangeRest (awaiting : List Bool) : Language TokenKind :=
  phrases .expression * (exactly .comma * (phrases .expression
    * (exactly .closeParen * (exactly .colon * bodyRest false awaiting))))

/-- What may follow the expression that serves the given purpose. -/
def Purpose.remainder (awaiting : List Bool) : Purpose → Language TokenKind
  | .statement | .assigned _ => afterStatement awaiting
  | .item .. => moreArguments (exactly .closeBracket * afterStatement awaiting)
  | .compared guard _ =>
    token IsRelation
      * (phrases .expression * (exactly .colon * bodyRest guard.awaitsElse awaiting))
  | .comparand guard .. => exactly .colon * bodyRest guard.awaitsElse awaiting
  | .rangeFirst .. =>
    exactly .comma
      * (phrases .expression * (exactly .closeParen * (exactly .colon * bodyRest false awaiting)))
  | .rangeStop .. => exactly .closeParen * (exactly .colon * bodyRest false awaiting)
  | .printed _ => exactly .closeParen * afterStatement awaiting

/-- What may follow a name if the name is assigned to. Only a name that starts a statement is. -/
def assignRest (awaiting : List Bool) : Purpose → List Waiting → Language TokenKind
  | .statement, [] => exactly .assign * assignmentRest (afterStatement awaiting)
  | _, _ => 0

/-! ## Configurations -/

/-- What may follow in the given phase. -/
def Phase.remainder (awaiting : List Bool) : Phase → Language TokenKind
  | .statement => phrases .sequence * afterSequence awaiting
  | .operand purpose waiting =>
    phrases .expression * afterExpression (purpose.remainder awaiting) waiting
      + token IsName * assignRest awaiting purpose waiting
  | .named purpose waiting _ =>
    let L := afterExpression (purpose.remainder awaiting) waiting
    moreOperands L + exactly .openParen * callRest L + assignRest awaiting purpose waiting
  | .callOpened purpose waiting _ => callRest (afterExpression (purpose.remainder awaiting) waiting)
  | .operated purpose waiting _ =>
    moreOperands (afterExpression (purpose.remainder awaiting) waiting)
  | .assigned _ => assignmentRest (afterStatement awaiting)
  | .listOpened .. =>
    (1 + phrases .arguments) * (exactly .closeBracket * afterStatement awaiting)
  | .printWord start =>
    exactly .openParen * (phrases .expression * (Purpose.printed start).remainder awaiting)
  | .forWord _ =>
    token IsName
      * (exactly .wordIn * (exactly .wordRange * (exactly .openParen * rangeRest awaiting)))
  | .forNamed .. =>
    exactly .wordIn * (exactly .wordRange * (exactly .openParen * rangeRest awaiting))
  | .forIn .. => exactly .wordRange * (exactly .openParen * rangeRest awaiting)
  | .forRange .. => exactly .openParen * rangeRest awaiting
  | .forClosed .. => exactly .colon * bodyRest false awaiting
  | .elseWord .. => exactly .colon * bodyRest false awaiting
  | .stated _ => afterStatement awaiting

/-- What may follow in a configuration: the kinds of the tokens that complete a script. -/
def Config.remainder : Config → Language TokenKind
  | .reading nest phase => phase.remainder nest.awaiting
  | .finished _ => 1

/-- What may follow where reading may have failed. -/
def remainder? (c : Option Config) : Language TokenKind := c.elim 0 Config.remainder

/-! ## The innermost sequence takes what it can -/

variable {awaiting outer : List Bool} {awaitsElse : Bool}

/-- Behind a statement its sequence ends, or a `;` and more statements follow. -/
theorem cons_mem_afterStatement :
    k :: ks ∈ afterStatement awaiting ↔
      k :: ks ∈ afterSequence awaiting
        ∨ k = .semicolon ∧ ks ∈ phrases .sequence * afterSequence awaiting :=
  cons_mem_moreStatements

/-- Behind the sequence of a body goes on what is around the body, or its `else` follows. -/
theorem cons_mem_afterSequence_cons :
    k :: ks ∈ afterSequence (awaitsElse :: outer) ↔
      k :: ks ∈ afterStatement outer
        ∨ awaitsElse = true ∧ k = .wordElse ∧ ks ∈ exactly .colon * bodyRest false outer := by
  cases awaitsElse
  · simp [afterSequence, afterBody, afterStatement]
  · simp only [afterSequence, afterBody, orElse, Language.mem_add, cons_mem_token_mul, if_true,
      true_and]
    rfl

/-- A statement may be the last of its sequence. -/
theorem afterSequence_le_afterStatement : afterSequence awaiting ≤ afterStatement awaiting := by
  rw [afterStatement, moreStatements_eq]
  exact le_self_add

/-- The sequence of a body may be the end of the statement around it. -/
theorem afterStatement_le_afterSequence :
    afterStatement outer ≤ afterSequence (awaitsElse :: outer) := by
  cases awaitsElse
  · exact le_rfl
  · exact le_self_add

/-- A `;` may always go to the innermost sequence. -/
theorem semicolon_mem_afterStatement :
    .semicolon :: ks ∈ afterStatement awaiting ↔
      ks ∈ phrases .sequence * afterSequence awaiting := by
  constructor
  · intro h
    induction awaiting with
    | nil => simpa [cons_mem_afterStatement, afterSequence] using h
    | cons awaitsElse outer ih =>
      rw [cons_mem_afterStatement, cons_mem_afterSequence_cons] at h
      rcases h with (h | ⟨-, h, -⟩) | ⟨-, h⟩
      · -- a sequence further out takes it; this sequence ends no earlier than that one
        have hle : phrases .sequence * afterSequence outer
            ≤ phrases .sequence * afterSequence (awaitsElse :: outer) := by
          gcongr
          exact afterSequence_le_afterStatement.trans afterStatement_le_afterSequence
        exact hle (ih h)
      · cases h
      · exact h
  · intro h
    exact cons_mem_afterStatement.mpr (.inr ⟨rfl, h⟩)

/-- An `else` that may go to an `if` further out may follow the statement around as well. -/
theorem colon_mem_of_else_mem (h : .wordElse :: ks ∈ afterStatement awaiting) :
    ks ∈ exactly .colon * bodyRest false awaiting := by
  induction awaiting with
  | nil => simp [cons_mem_afterStatement, afterSequence] at h
  | cons awaitsElse outer ih =>
    rw [cons_mem_afterStatement, cons_mem_afterSequence_cons] at h
    have hle : exactly .colon * bodyRest false outer
        ≤ exactly .colon * bodyRest false (awaitsElse :: outer) := by
      unfold bodyRest
      gcongr
      exact afterStatement_le_afterSequence.trans afterSequence_le_afterStatement
    rcases h with (h | ⟨-, -, h⟩) | ⟨h, -⟩
    · exact hle (ih h)
    · exact hle h
    · cases h

/-- An `else` may always go to the innermost `if` that has none, and has to go to one. -/
theorem else_mem_afterStatement_cons :
    .wordElse :: ks ∈ afterStatement (awaitsElse :: outer) ↔
      if awaitsElse then ks ∈ exactly .colon * bodyRest false outer
      else .wordElse :: ks ∈ afterStatement outer := by
  rw [cons_mem_afterStatement, cons_mem_afterSequence_cons]
  cases awaitsElse
  · simp
  · simp only [if_true, true_and, reduceCtorEq, false_and, or_false]
    exact ⟨fun h => h.elim colon_mem_of_else_mem id, .inr⟩

/-- The end of input ends every sequence. -/
theorem endOfInput_mem_afterStatement :
    .endOfInput :: ks ∈ afterStatement awaiting ↔ ks = [] := by
  induction awaiting with
  | nil => simp [cons_mem_afterStatement, afterSequence]
  | cons awaitsElse outer ih => simp [cons_mem_afterStatement, cons_mem_afterSequence_cons, ih]

/-- Nothing else follows a statement. -/
theorem not_mem_afterStatement (hs : k ≠ .semicolon) (he : k ≠ .wordElse) (hi : k ≠ .endOfInput) :
    k :: ks ∉ afterStatement awaiting := by
  induction awaiting with
  | nil => simp [cons_mem_afterStatement, afterSequence, hs, hi]
  | cons awaitsElse outer ih =>
    simp [cons_mem_afterStatement, cons_mem_afterSequence_cons, hs, he, ih]

/-! ## The remainder after a token -/

variable {nest : Nest} {t : Token} {purpose : Purpose} {waiting : List Waiting}

@[simp]
theorem mem_remainder?_none : ks ∉ remainder? none := Language.notMem_zero ks

@[simp]
theorem remainder?_some (c : Config) : remainder? (some c) = c.remainder := rfl

@[simp]
theorem remainder_reading (phase : Phase) :
    (Config.reading nest phase).remainder = phase.remainder nest.awaiting := rfl

/-- An `else` is taken by the nearest `if` that can take it, and what may follow then is what the
grammar lets follow. -/
theorem mem_remainder?_closeToElse (outer : List OpenBody) (before : List Tree) (last : Tree) :
    ks ∈ remainder? (closeToElse outer before last) ↔
      .wordElse :: ks ∈ afterStatement (outer.map (·.head.awaitsElse)) := by
  induction outer generalizing before last with
  | nil => simp [closeToElse, cons_mem_afterStatement, afterSequence]
  | cons body outer ih =>
    obtain ⟨head, around⟩ := body
    rw [List.map_cons, else_mem_afterStatement_cons]
    cases head with
    -- the nearest `if` takes the `else`; whatever else is open ends before it
    | ifThen start condition => rfl
    | ifElse start condition body => exact ih _ _
    | forRange start iterator first stop => exact ih _ _
    | whileLoop start condition => exact ih _ _

/-- What may follow behind the token after a statement. -/
theorem mem_remainder?_afterStatement (s : Tree) :
    ks ∈ remainder? (afterStatement? nest s t) ↔ t.kind :: ks ∈ afterStatement nest.awaiting := by
  unfold afterStatement?
  split
  next h => rw [h, semicolon_mem_afterStatement]; rfl
  next h => rw [h]; exact mem_remainder?_closeToElse _ _ _
  next h => rw [h, endOfInput_mem_afterStatement]; rfl
  next hs he hi => simp [not_mem_afterStatement hs he hi]

/-- What may follow behind the first token of an operand. -/
theorem mem_remainder?_startOperand :
    ks ∈ remainder? ((startOperand? purpose waiting t).map (.reading nest)) ↔
      t.kind :: ks ∈ (Phase.operand purpose waiting).remainder nest.awaiting := by
  simp only [Phase.remainder, Language.mem_add, cons_mem_expression_mul, cons_mem_token_mul]
  unfold startOperand?
  split <;>
    simp_all [Phase.remainder, IsLiteral, IsName, afterExpression, Language.mem_add, assignRest]

/-- What may follow behind the token after a complete expression. -/
theorem mem_remainder?_afterExpression (e : Tree) :
    ks ∈ remainder? (afterExpression? nest purpose e t) ↔
      t.kind :: ks ∈ purpose.remainder nest.awaiting := by
  cases purpose with
  | statement => exact mem_remainder?_afterStatement e
  | assigned target => exact mem_remainder?_afterStatement _
  -- in every other case both sides ask for the same kinds of token, each with the same rest
  | item target opened before =>
    simp only [Purpose.remainder, cons_mem_moreArguments, cons_mem_token_mul, arguments_mul]
    cases h : t.kind <;>
      simp [afterExpression?, h, Phase.remainder, Purpose.remainder, afterExpression, assignRest]
  | compared guard start =>
    simp only [Purpose.remainder, cons_mem_token_mul]
    cases h : t.kind <;>
      simp [afterExpression?, h, Phase.remainder, Purpose.remainder, afterExpression, assignRest,
        IsRelation]
  | comparand guard start op left =>
    simp only [Purpose.remainder, cons_mem_token_mul]
    cases h : t.kind <;>
      simp [afterExpression?, h, Phase.remainder, openBody, bodyRest, Nest.awaiting]
  | rangeFirst start iterator =>
    simp only [Purpose.remainder, cons_mem_token_mul]
    cases h : t.kind <;>
      simp [afterExpression?, h, Phase.remainder, Purpose.remainder, afterExpression, assignRest]
  | rangeStop start iterator first =>
    simp only [Purpose.remainder, cons_mem_token_mul]
    cases h : t.kind <;>
      simp [afterExpression?, h, Phase.remainder]
  | printed start =>
    simp only [Purpose.remainder, cons_mem_token_mul]
    cases h : t.kind <;>
      simp [afterExpression?, h, Phase.remainder]

/-- Giving an operand to operators changes nothing about what may follow. -/
theorem afterExpression_giveOperand (takes : Arithmetic → Bool) (operand : Tree) :
    afterExpression L (giveOperand takes waiting operand).1 = afterExpression L waiting := by
  fun_induction giveOperand takes waiting operand with
  | case1 left op waiting operand htakes ih => exact ih
  | case2 left op waiting operand htakes => rfl
  | case3 waiting operand hwaiting => rfl

/-- The tokens that may stand behind an expression. -/
def EndsExpression : TokenKind → Prop
  | .relation _ | .closeParen | .closeBracket | .comma | .colon | .semicolon | .wordElse
  | .endOfInput => True
  | _ => False

/-- What can follow an expression for the sake of its purpose can end it. -/
theorem endsExpression_of_mem_remainder (h : k :: ks ∈ purpose.remainder awaiting) :
    EndsExpression k := by
  -- an expression that is all of a statement, or its end, is followed by what follows the statement
  have hstatement : k :: ks ∈ afterStatement awaiting → EndsExpression k := by
    intro hk
    by_contra hends
    refine not_mem_afterStatement ?_ ?_ ?_ hk <;> rintro rfl <;> exact hends trivial
  cases purpose with
  | statement => exact hstatement h
  | assigned target => exact hstatement h
  | compared guard start =>
    obtain ⟨hk, -⟩ := cons_mem_token_mul.mp h
    cases k <;> trivial
  | item target opened before =>
    rcases cons_mem_moreArguments.mp h with hk | ⟨rfl, -⟩
    · obtain ⟨rfl, -⟩ := cons_mem_token_mul.mp hk
      trivial
    · trivial
  | _ =>
    obtain ⟨rfl, -⟩ := cons_mem_token_mul.mp h
    trivial

/-- What can follow an expression inside of others can end it. -/
theorem endsExpression_of_mem_afterExpression
    (h : k :: ks ∈ afterExpression (purpose.remainder awaiting) waiting) : EndsExpression k := by
  induction waiting with
  | nil => exact endsExpression_of_mem_remainder h
  | cons wait waiting ih =>
    cases wait with
    | operator left op => exact ih h
    | group =>
      obtain ⟨rfl, -⟩ := cons_mem_token_mul.mp h
      trivial
    | argument callee before =>
      rcases cons_mem_moreArguments.mp h with hk | ⟨rfl, -⟩
      · obtain ⟨rfl, -⟩ := cons_mem_token_mul.mp hk
        trivial
      · trivial

/-- An operator after an operand is never the end of the expression. -/
theorem arithmetic_not_mem_afterExpression (op : Arithmetic) :
    .arithmetic op :: ks ∉ afterExpression (purpose.remainder awaiting) waiting :=
  endsExpression_of_mem_afterExpression

/-- What follows an operand ends the expression or is an operator. -/
theorem endsExpression_or_isArithmetic
    (h : k :: ks ∈ moreOperands (afterExpression (purpose.remainder awaiting) waiting)) :
    EndsExpression k ∨ IsArithmetic k := by
  rcases cons_mem_moreOperands.mp h with h | ⟨h, -⟩
  · exact .inl (endsExpression_of_mem_afterExpression h)
  · exact .inr h

/-- What may follow behind the token after an operand. -/
theorem mem_remainder?_afterOperand (operand : Tree) :
    ks ∈ remainder? (afterOperand? nest purpose waiting operand t) ↔
      t.kind :: ks ∈ moreOperands (afterExpression (purpose.remainder nest.awaiting) waiting) := by
  rw [cons_mem_moreOperands]
  unfold afterOperand?
  split
  -- an operator and the rest of the expression
  next op h =>
    simp [h, arithmetic_not_mem_afterExpression, IsArithmetic, Phase.remainder, afterExpression,
      afterExpression_giveOperand, assignRest]
  next hkind =>
    have hnot : ¬ IsArithmetic t.kind := by
      cases h : t.kind <;> simp_all [IsArithmetic]
    -- all operators have their operands, so none is on top, and operators change nothing about what
    -- may follow
    have htop := giveOperand_ne_operator waiting operand
    rw [← afterExpression_giveOperand (fun _ => true) operand]
    simp only [hnot, false_and, or_false]
    generalize giveOperand (fun _ => true) waiting operand = given at htop ⊢
    obtain ⟨waiting, operand⟩ := given
    cases waiting with
    | nil => exact mem_remainder?_afterExpression operand
    | cons wait waiting =>
      cases wait with
      | operator left op => exact absurd rfl (htop left op waiting)
      | group =>
        cases h : t.kind <;> simp [afterExpression, Phase.remainder]
      | argument callee before =>
        cases h : t.kind <;>
          simp [afterExpression, Phase.remainder, cons_mem_moreArguments, arguments_mul, assignRest]

/-- What may follow the colon of an `if`. -/
theorem bodyRest_true :
    bodyRest true awaiting = phrases .sequence * orElse (afterStatement awaiting) :=
  rfl

/-- What may follow a colon that no `else` belongs to. -/
theorem bodyRest_false :
    bodyRest false awaiting = phrases .sequence * afterStatement awaiting := rfl

/-- What may follow behind the first token of a statement. -/
theorem mem_remainder?_statement :
    ks ∈ remainder? (Phase.statement.advance? nest t) ↔
      t.kind :: ks ∈ Phase.statement.remainder nest.awaiting := by
  have hrest : (Phase.statement).remainder nest.awaiting
      = phrases .statement * afterStatement nest.awaiting := sequence_mul
  rw [hrest, cons_mem_statement_mul]
  simp only [Phase.advance?]
  split
  next h =>
    rw [h]
    simp [cons_mem_expression_mul, IsLiteral, IsName, Phase.remainder, Purpose.remainder,
      afterExpression, assignRest, condition_mul, Guard.awaitsElse, bodyRest_true]
  next h =>
    rw [h]
    simp [cons_mem_expression_mul, IsLiteral, IsName, Phase.remainder, Purpose.remainder,
      afterExpression, assignRest, condition_mul, Guard.awaitsElse, bodyRest_false]
  next h =>
    rw [h]
    simp [cons_mem_expression_mul, IsLiteral, IsName, Phase.remainder, rangeRest, bodyRest_false]
  next h =>
    rw [h]
    simp [cons_mem_expression_mul, IsLiteral, IsName, Phase.remainder, Purpose.remainder]
  -- no word begins the statement, so an operand does, which may turn out to be the target of an
  -- assignment
  next hif hwhile hfor hprint =>
    rw [mem_remainder?_startOperand]
    simp only [Phase.remainder, Language.mem_add, cons_mem_token_mul, eq_false hif,
      eq_false hwhile, eq_false hfor, eq_false hprint, false_and, or_false, afterExpression,
      assignRest, Purpose.remainder]
    exact or_comm

/-- A `=` may only follow a name that stands first in its statement. -/
theorem cons_mem_assignRest :
    k :: ks ∈ assignRest awaiting purpose waiting ↔
      purpose = .statement ∧ waiting = [] ∧ k = .assign
        ∧ ks ∈ assignmentRest (afterStatement awaiting) := by
  fun_cases assignRest awaiting purpose waiting <;> simp_all

/-- What may follow behind the token after a name. -/
theorem mem_remainder?_named (name : Ident) :
    ks ∈ remainder? ((Phase.named purpose waiting name).advance? nest t) ↔
      t.kind :: ks ∈ (Phase.named purpose waiting name).remainder nest.awaiting := by
  simp only [Phase.remainder, Phase.advance?, Language.mem_add, cons_mem_token_mul,
    cons_mem_assignRest]
  -- a parenthesis and a `=` follow no operand, so each of them settles what the name is
  have hnot : ∀ {k}, ¬ EndsExpression k → ¬ IsArithmetic k →
      k :: ks ∉ moreOperands (afterExpression (purpose.remainder nest.awaiting) waiting) :=
    fun h₁ h₂ h => (endsExpression_or_isArithmetic h).elim h₁ h₂
  split
  next h =>
    simp [h, hnot (k := .openParen) id id, Phase.remainder]
  next h =>
    simp [h, hnot (k := .assign) id id, Phase.remainder]
  next hcall hassign =>
    rw [mem_remainder?_afterOperand]
    simp only [eq_false hcall, false_and, or_false]
    refine ⟨.inl, ?_⟩
    rintro (h | ⟨hp, hw, hk, -⟩)
    · exact h
    · exact (hassign hp hw hk).elim

/-- What may follow behind the token after the parenthesis of a call. -/
theorem mem_remainder?_callOpened (callee : Ident) :
    ks ∈ remainder? ((Phase.callOpened purpose waiting callee).advance? nest t) ↔
      t.kind :: ks ∈ (Phase.callOpened purpose waiting callee).remainder nest.awaiting := by
  simp only [Phase.remainder, Phase.advance?, callRest, add_mul, one_mul, Language.mem_add,
    cons_mem_token_mul, arguments_mul]
  split
  next h =>
    simp [h, cons_mem_expression_mul, IsLiteral, IsName, Phase.remainder]
  next h =>
    rw [mem_remainder?_startOperand]
    simp [Phase.remainder, afterExpression, assignRest, eq_false h]

/-- What may follow behind the token after `=`. -/
theorem mem_remainder?_assigned (target : Ident) :
    ks ∈ remainder? ((Phase.assigned target).advance? nest t) ↔
      t.kind :: ks ∈ (Phase.assigned target).remainder nest.awaiting := by
  simp only [Phase.remainder, Phase.advance?, assignmentRest, Language.mem_add, cons_mem_token_mul]
  split
  next h =>
    simp [h, cons_mem_expression_mul, IsLiteral, IsName, Phase.remainder]
  next h =>
    rw [mem_remainder?_startOperand]
    simp [Phase.remainder, Purpose.remainder, afterExpression, assignRest, eq_false h]

/-- What may follow behind the token after the bracket of a list. -/
theorem mem_remainder?_listOpened (target : Ident) (opened : Position) :
    ks ∈ remainder? ((Phase.listOpened target opened).advance? nest t) ↔
      t.kind :: ks ∈ (Phase.listOpened target opened).remainder nest.awaiting := by
  simp only [Phase.remainder, Phase.advance?, add_mul, one_mul, Language.mem_add,
    cons_mem_token_mul, arguments_mul]
  split
  next h =>
    simp [h, cons_mem_expression_mul, IsLiteral, IsName, Phase.remainder]
  next h =>
    rw [mem_remainder?_startOperand]
    simp [Phase.remainder, Purpose.remainder, afterExpression, assignRest, eq_false h]

/-- The token `t` is taken exactly if it begins a word of the remainder, and the rest of such words
is the new remainder. -/
theorem mem_remainder_cons (c : Config) :
    t.kind :: ks ∈ c.remainder ↔ ks ∈ remainder? (c.advance? t) := by
  cases c with
  | finished program => simp [Config.remainder, Config.advance?]
  | reading nest phase =>
    rw [remainder_reading, Config.advance?]
    symm
    cases phase with
    | statement => exact mem_remainder?_statement
    | operand purpose waiting => exact mem_remainder?_startOperand
    | named purpose waiting name => exact mem_remainder?_named name
    | callOpened purpose waiting callee => exact mem_remainder?_callOpened callee
    | operated purpose waiting operand => exact mem_remainder?_afterOperand operand
    | assigned target => exact mem_remainder?_assigned target
    | listOpened target opened => exact mem_remainder?_listOpened target opened
    | stated s => exact mem_remainder?_afterStatement s
    -- the phases that wait for a single kind of token
    | _ =>
      simp only [Phase.remainder, cons_mem_token_mul]
      cases h : t.kind <;>
        simp [Phase.advance?, h, Phase.remainder, Purpose.remainder, afterExpression, assignRest,
          IsName, rangeRest, openBody, bodyRest, Nest.awaiting, Head.awaitsElse]

end Plume.Parser
