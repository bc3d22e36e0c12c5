import Plume.Proofs.Reading

/-!
# Trees and tokens without their places

`bare` puts one and the same span everywhere. The parser carries the places along and never looks at
them: reading bare tokens leads from a bare configuration to the bare form of what the tokens
themselves lead to (`advance?_bare`, and `read?_bare` for a whole list). So the kinds of the tokens
fix the program that is read, up to its places.
-/

namespace Plume

/-- The span of what has no place in a source text. -/
def Span.blank : Span := ⟨⟨0, 0⟩, ⟨0, 0⟩⟩

/-- A name without its place. -/
def Ident.bare (x : Ident) : Ident := ⟨.blank, x.name⟩

/-- A token of the given kind, with neither a spelling nor a place. -/
def Token.ofKind (kind : TokenKind) : Token := ⟨kind, [], .blank⟩

namespace Tree

mutual

/-- A tree without its places. -/
def bare : Tree → Tree
  | .number _ value => .number .blank value
  | .boolean _ value => .boolean .blank value
  | .string _ value => .string .blank value
  | .reference _ name => .reference .blank name
  | .binary _ op left right => .binary .blank op (bare left) (bare right)
  | .list _ items => .list .blank (bareAll items)
  | .call _ callee arguments => .call .blank callee.bare (bareAll arguments)
  | .block _ statements => .block .blank (bareAll statements)
  | .assign _ target value => .assign .blank target.bare (bare value)
  | .ifThen _ condition body => .ifThen .blank (bare condition) (bare body)
  | .ifElse _ condition body otherwise =>
    .ifElse .blank (bare condition) (bare body) (bare otherwise)
  | .forRange _ iterator first stop body =>
    .forRange .blank iterator.bare (bare first) (bare stop) (bare body)
  | .whileLoop _ condition body => .whileLoop .blank (bare condition) (bare body)
  | .print _ argument => .print .blank (bare argument)

/-- Trees without their places. -/
def bareAll : List Tree → List Tree
  | [] => []
  | t :: rest => bare t :: bareAll rest

end

@[simp]
theorem bareAll_eq_map (ts : List Tree) : bareAll ts = ts.map bare := by
  induction ts with
  | nil => rfl
  | cons t rest ih => rw [bareAll, ih, List.map_cons]

/-- A bare tree says nothing about where it stands. -/
@[simp]
theorem span_bare (t : Tree) : t.bare.span = .blank := by
  cases t <;> rfl

theorem bare_join (op : Operator) (left right : Tree) :
    (join op left right).bare = join op left.bare right.bare := by
  simp [join, bare, Span.to, Span.blank]

end Tree

/-- A program without its places. -/
def Program.bare (p : Program) : Program := ⟨.blank, p.statements.map Tree.bare⟩

namespace Parser

/-! ## Configurations without places -/

/-- A head without its places. -/
def Head.bare : Head → Head
  | .ifThen _ condition => .ifThen Span.blank.start condition.bare
  | .ifElse _ condition body => .ifElse Span.blank.start condition.bare body.bare
  | .forRange _ iterator first stop =>
    .forRange Span.blank.start iterator.bare first.bare stop.bare
  | .whileLoop _ condition => .whileLoop Span.blank.start condition.bare

/-- An open body without its places. -/
def OpenBody.bare (b : OpenBody) : OpenBody := ⟨b.head.bare, b.before.map Tree.bare⟩

/-- Open sequences without their places. -/
def Nest.bare (nest : Nest) : Nest := ⟨nest.before.map Tree.bare, nest.outer.map OpenBody.bare⟩

/-- A purpose without its places. -/
def Purpose.bare : Purpose → Purpose
  | .statement => .statement
  | .assigned target => .assigned target.bare
  | .item target _ before => .item target.bare Span.blank.start (before.map Tree.bare)
  | .compared guard _ => .compared guard Span.blank.start
  | .comparand guard _ op left => .comparand guard Span.blank.start op left.bare
  | .rangeFirst _ iterator => .rangeFirst Span.blank.start iterator.bare
  | .rangeStop _ iterator first => .rangeStop Span.blank.start iterator.bare first.bare
  | .printed _ => .printed Span.blank.start

/-- What waits for an operand, without its places. -/
def Waiting.bare : Waiting → Waiting
  | .operator left op => .operator left.bare op
  | .group => .group
  | .argument callee before => .argument callee.bare (before.map Tree.bare)

/-- A phase without its places. -/
def Phase.bare : Phase → Phase
  | .statement => .statement
  | .operand purpose waiting => .operand purpose.bare (waiting.map Waiting.bare)
  | .named purpose waiting name => .named purpose.bare (waiting.map Waiting.bare) name.bare
  | .callOpened purpose waiting callee =>
    .callOpened purpose.bare (waiting.map Waiting.bare) callee.bare
  | .operated purpose waiting e => .operated purpose.bare (waiting.map Waiting.bare) e.bare
  | .assigned target => .assigned target.bare
  | .listOpened target _ => .listOpened target.bare Span.blank.start
  | .printWord _ => .printWord Span.blank.start
  | .forWord _ => .forWord Span.blank.start
  | .forNamed _ iterator => .forNamed Span.blank.start iterator.bare
  | .forIn _ iterator => .forIn Span.blank.start iterator.bare
  | .forRange _ iterator => .forRange Span.blank.start iterator.bare
  | .forClosed _ iterator first stop =>
    .forClosed Span.blank.start iterator.bare first.bare stop.bare
  | .elseWord _ condition body => .elseWord Span.blank.start condition.bare body.bare
  | .stated s => .stated s.bare

/-- A configuration without its places. -/
def Config.bare : Config → Config
  | .reading nest phase => .reading nest.bare phase.bare
  | .finished program => .finished program.bare

variable (nest : Nest) (t : Token)

/-! ## One token -/

/-- Completing a head commutes with forgetting spans. -/
theorem complete_bare (head : Head) (body : Tree) :
    head.bare.complete body.bare = (head.complete body).bare := by
  cases head <;> simp [Head.bare, Head.complete, Tree.bare, Span.blank]

/-- Whether a sequence is put into a block does not depend on spans. -/
theorem bodyOf_bare (before : List Tree) (last : Tree) :
    bodyOf (before.map Tree.bare) last.bare = (bodyOf before last).bare := by
  cases before <;> simp [bodyOf, Tree.bare, Span.to, Span.blank]

/-- Making a program of a sequence commutes with forgetting spans. -/
theorem programOf_bare (before : List Tree) (last : Tree) :
    programOf (before.map Tree.bare) last.bare = (programOf before last).bare := by
  cases before <;> simp [programOf, Program.bare, Span.to, Span.blank]

/-- An `else` finds its `if` without looking at spans. -/
theorem closeToElse_bare (outer : List OpenBody) (before : List Tree) (last : Tree) :
    closeToElse (outer.map OpenBody.bare) (before.map Tree.bare) last.bare
      = (closeToElse outer before last).map Config.bare := by
  induction outer generalizing before last with
  | nil => rfl
  | cons b outer ih =>
    obtain ⟨head, around⟩ := b
    cases head with
    | ifThen start condition =>
      simp [closeToElse, OpenBody.bare, Head.bare, bodyOf_bare, Config.bare, Nest.bare, Phase.bare]
    | _ =>
      -- any other head is completed, and the search goes on outside
      simp only [List.map_cons, OpenBody.bare, closeToElse, bodyOf_bare, ← ih, ← complete_bare]
      rfl

/-- All bodies are closed without looking at spans. -/
theorem closeAll_bare (outer : List OpenBody) (before : List Tree) (last : Tree) :
    closeAll (outer.map OpenBody.bare) (before.map Tree.bare) last.bare
      = (closeAll outer before last).bare := by
  induction outer generalizing before last with
  | nil => exact programOf_bare before last
  | cons b outer ih =>
    rw [List.map_cons, OpenBody.bare, closeAll, closeAll, bodyOf_bare, complete_bare, ih]

/-- The kind of the token behind a statement is all that matters. -/
theorem afterStatement?_bare (s : Tree) :
    afterStatement? nest.bare s.bare (.ofKind t.kind)
      = (afterStatement? nest s t).map Config.bare := by
  cases h : t.kind <;>
    simp [afterStatement?, Token.ofKind, h, Config.bare, Nest.bare, Phase.bare, closeToElse_bare,
      closeAll_bare]

theorem openBody_bare (head : Head) :
    openBody nest.bare head.bare = (openBody nest head).bare := rfl

/-- Operators take their operands without looking at spans. -/
theorem giveOperand_bare (takes : Arithmetic → Bool) (waiting : List Waiting) (operand : Tree) :
    giveOperand takes (waiting.map Waiting.bare) operand.bare
      = ((giveOperand takes waiting operand).1.map Waiting.bare,
          (giveOperand takes waiting operand).2.bare) := by
  induction waiting generalizing operand with
  | nil => rfl
  | cons w waiting ih =>
    cases w with
    | operator left op =>
      simp only [List.map_cons, Waiting.bare, giveOperand, ← Tree.bare_join, ih]
      split <;> rfl
    | group => rfl
    | argument callee before => rfl

theorem callTree_bare (callee : Ident) (arguments : List Tree) :
    callTree callee.bare (arguments.map Tree.bare) (.ofKind t.kind)
      = (callTree callee arguments t).bare := by
  simp [callTree, Tree.bare, Ident.bare, Token.ofKind, Span.to, Span.blank]

theorem listAssignment_bare (target : Ident) (opened : Position) (items : List Tree) :
    listAssignment target.bare Span.blank.start (items.map Tree.bare) (.ofKind t.kind)
      = (listAssignment target opened items t).bare := by
  simp [listAssignment, Tree.bare, Tree.span, Ident.bare, Token.ofKind, Span.to, Span.blank]

theorem guardHead_bare (guard : Guard) (start : Position) (condition : Tree) :
    guard.head Span.blank.start condition.bare = (guard.head start condition).bare := by
  cases guard <;> rfl

/-- The kind of the token behind a complete expression is all that matters. -/
theorem afterExpression?_bare (purpose : Purpose) (e : Tree) :
    afterExpression? nest.bare purpose.bare e.bare (.ofKind t.kind)
      = (afterExpression? nest purpose e t).map Config.bare := by
  cases purpose with
  | statement => exact afterStatement?_bare nest t e
  | assigned target =>
    have h := afterStatement?_bare nest t (.assign (target.span.to e.span) target e)
    simpa [afterExpression?, Purpose.bare, Tree.bare, Ident.bare, Span.to, Span.blank] using h
  -- the token decides, and its place goes no further than into a span
  | item target opened before =>
    have h := listAssignment_bare t target opened (before ++ [e])
    cases hk : t.kind <;>
      simp_all [afterExpression?, Purpose.bare, Token.ofKind, Config.bare, Phase.bare]
  | comparand guard start op left =>
    cases hk : t.kind <;>
      simp [afterExpression?, Purpose.bare, Token.ofKind, hk, ← openBody_bare, ← guardHead_bare,
        ← Tree.bare_join]
  | _ =>
    cases hk : t.kind <;>
      simp [afterExpression?, Purpose.bare, Token.ofKind, hk, Config.bare, Phase.bare, Tree.bare]

/-- The kind of the token behind an operand is all that matters. -/
theorem afterOperand?_bare (purpose : Purpose) (waiting : List Waiting) (operand : Tree) :
    afterOperand? nest.bare purpose.bare (waiting.map Waiting.bare) operand.bare (.ofKind t.kind)
      = (afterOperand? nest purpose waiting operand t).map Config.bare := by
  have hall := giveOperand_bare (fun _ => true) waiting operand
  have hexpression := afterExpression?_bare nest t purpose
  have hcall := callTree_bare t
  cases hgive : giveOperand (fun _ => true) waiting operand with
  | mk around e =>
    rw [hgive] at hall
    cases hk : t.kind with
    | arithmetic op =>
      simp [afterOperand?, Token.ofKind, hk, giveOperand_bare, Config.bare, Phase.bare,
        Waiting.bare]
    | _ =>
      rw [hk] at hexpression hcall
      -- nothing around, an operator, a group or a call
      rcases around with _ | ⟨_ | _ | ⟨callee, before⟩, around⟩ <;>
        simp_all [afterOperand?, Token.ofKind, Config.bare, Phase.bare, Waiting.bare] <;>
        simp [← hcall]

/-- The kind of the token behind a name is all that matters. -/
theorem named_advance?_bare (purpose : Purpose) (waiting : List Waiting) (name : Ident) :
    (Phase.named purpose waiting name).bare.advance? nest.bare (.ofKind t.kind)
      = ((Phase.named purpose waiting name).advance? nest t).map Config.bare := by
  have hoperand := afterOperand?_bare nest t purpose waiting (.ofIdent name)
  cases hk : t.kind with
  | openParen => simp [Phase.advance?, Phase.bare, Token.ofKind, hk, Config.bare]
  | assign =>
    -- only a name that begins a statement can be assigned to
    rw [hk] at hoperand
    cases purpose with
    | statement =>
      cases waiting with
      | nil => simp only [Phase.advance?, Phase.bare, Purpose.bare, Token.ofKind, hk, List.map_nil,
          Option.map_some, Config.bare]
      | cons w waiting =>
        simp only [Phase.advance?, Phase.bare, Purpose.bare, Token.ofKind, hk, List.map_cons]
        exact hoperand
    | _ =>
      simp only [Phase.advance?, Phase.bare, Purpose.bare, Token.ofKind, hk]
      exact hoperand
  | _ =>
    rw [hk] at hoperand
    simp only [Phase.advance?, Phase.bare, Token.ofKind, hk]
    exact hoperand

/-- A token does to a bare configuration what it does to the configuration itself. -/
theorem advance?_bare (c : Config) (t : Token) :
    c.bare.advance? (.ofKind t.kind) = (c.advance? t).map Config.bare := by
  cases c with
  | finished program => rfl
  | reading nest phase =>
    cases phase with
    | operated purpose waiting e => exact afterOperand?_bare nest t purpose waiting e
    | named purpose waiting name => exact named_advance?_bare nest t purpose waiting name
    | stated s => exact afterStatement?_bare nest t s
    | _ =>
      obtain ⟨kind, text, span⟩ := t
      cases kind <;> rfl

/-! ## Many tokens -/

/-- Reading bare tokens leads to the bare form of what the tokens themselves lead to. -/
theorem read?_bare (c : Config) (tokens : List Token) :
    c.bare.read? ((kinds tokens).map .ofKind) = (c.read? tokens).map Config.bare := by
  induction tokens generalizing c with
  | nil => rfl
  | cons t rest ih =>
    rw [kinds_cons, List.map_cons, read?_cons, read?_cons, advance?_bare]
    cases c.advance? t with
    | none => rfl
    | some c' => exact ih c'

end Parser

/-- Tokens make up a program, up to places, exactly if bare tokens of the same kinds do. -/
theorem parse_ofKind_eq_ok {tokens : List Token} {program : Program} :
    parse ((kinds tokens).map .ofKind) = .ok program
      ↔ ∃ q, parse tokens = .ok q ∧ q.bare = program := by
  have hbare := Parser.read?_bare .start tokens
  have hstart : Parser.Config.start.bare = .start := rfl
  rw [hstart] at hbare
  simp only [parse, Parser.parseFrom_eq_ok, hbare, Option.map_eq_some_iff]
  constructor
  · rintro ⟨c, hc, hfinished⟩
    cases c with
    | reading nest phase => cases hfinished
    | finished q => exact ⟨q, hc, Parser.Config.finished.inj hfinished⟩
  · rintro ⟨q, hq, rfl⟩
    exact ⟨.finished q, hq, rfl⟩

/-- Tokens of the same kinds make up the same program, up to places. -/
theorem exists_parse_of_kinds_eq {tokens tokens' : List Token} {program : Program}
    (hkinds : kinds tokens = kinds tokens') (h : parse tokens = .ok program) :
    ∃ q, parse tokens' = .ok q ∧ q.bare = program.bare := by
  have hbare := parse_ofKind_eq_ok.mpr ⟨program, h, rfl⟩
  rw [hkinds] at hbare
  exact parse_ofKind_eq_ok.mp hbare

end Plume
