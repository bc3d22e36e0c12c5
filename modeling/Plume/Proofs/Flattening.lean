import Plume.Proofs.Reading
import Plume.Token.Scanner

/-!
# Trees and the tokens they were read from

A tree, read off from left to right, gives back the tokens it was read from, but for the parentheses
that only group: nothing is lost, invented or put in another order. Which parentheses group is a
matter of the tokens alone. A parenthesis behind a name, `print` or `range` opens arguments, and any
other groups together with the one that closes it.

## Shape of the proof

`Config.flatten` writes down all that a configuration holds, and `Config.parens` which parentheses
are open in it. A token that is taken is added at the end of the one, unless it groups by the other,
and goes on with the other as it would without the parser: `Phase.Takes.adds` goes through what a
token can do, and `advance?_adds` is the step. The whole is an induction on the tokens
(`read?_flatten`).
-/

namespace Plume

/-! ## Flattening -/

/-- The token of an operator. -/
def Operator.kind : Operator → TokenKind
  | .arithmetic op => .arithmetic op
  | .relation op => .relation op

namespace Tree

mutual

/-- The tokens of a tree from left to right, without parentheses that only group. -/
def flatten : Tree → List TokenKind
  | .number _ value => [.number value]
  | .boolean _ value => [if value then .wordTrue else .wordFalse]
  | .string _ value => [.string value]
  | .reference _ name => [.name name]
  | .binary _ op left right => flatten left ++ op.kind :: flatten right
  | .list _ items => .openBracket :: flattenAll .comma items ++ [.closeBracket]
  | .call _ callee arguments =>
    .name callee.name :: .openParen :: flattenAll .comma arguments ++ [.closeParen]
  | .block _ statements => flattenAll .semicolon statements
  | .assign _ target value => .name target.name :: .assign :: flatten value
  | .ifThen _ condition body => .wordIf :: flatten condition ++ .colon :: flatten body
  | .ifElse _ condition body otherwise =>
    .wordIf :: flatten condition ++ .colon :: flatten body
      ++ .wordElse :: .colon :: flatten otherwise
  | .forRange _ iterator first stop body =>
    .wordFor :: .name iterator.name :: .wordIn :: .wordRange :: .openParen :: flatten first
      ++ .comma :: flatten stop ++ .closeParen :: .colon :: flatten body
  | .whileLoop _ condition body => .wordWhile :: flatten condition ++ .colon :: flatten body
  | .print _ argument => .wordPrint :: .openParen :: flatten argument ++ [.closeParen]

/-- Trees one behind the other, with a separator between them. -/
def flattenAll (separator : TokenKind) : List Tree → List TokenKind
  | [] => []
  | [last] => flatten last
  | first :: rest => flatten first ++ separator :: flattenAll separator rest

end

/-- Trees one behind the other, with a separator behind each. -/
def flattenEach (separator : TokenKind) (ts : List Tree) : List TokenKind :=
  ts.flatMap fun t => t.flatten ++ [separator]

@[simp]
theorem flattenEach_nil (separator : TokenKind) : flattenEach separator [] = [] := rfl

/-- One more tree brings its tokens and one more separator. -/
@[simp]
theorem flattenEach_append_singleton (separator : TokenKind) (ts : List Tree) (t : Tree) :
    flattenEach separator (ts ++ [t]) = flattenEach separator ts ++ t.flatten ++ [separator] := by
  simp [flattenEach]

/-- The last tree has no separator behind it. -/
@[simp]
theorem flattenAll_append_singleton (separator : TokenKind) (init : List Tree) (last : Tree) :
    flattenAll separator (init ++ [last]) = flattenEach separator init ++ last.flatten := by
  induction init with
  | nil => rw [List.nil_append, flattenAll, flattenEach_nil, List.nil_append]
  | cons first rest ih =>
    have hcons : flattenAll separator (first :: (rest ++ [last]))
        = first.flatten ++ separator :: flattenAll separator (rest ++ [last]) := by
      rw [flattenAll]
      simp
    rw [List.cons_append, hcons, ih]
    simp [flattenEach]

end Tree

/-- The tokens of a program from left to right, up to the end of input. -/
def Program.flatten (p : Program) : List TokenKind := Tree.flattenAll .semicolon p.statements

/-! ## Parentheses that group -/

/-- Whether a parenthesis behind the token opens arguments. -/
def TokenKind.takesArguments : TokenKind → Bool
  | .name _ | .wordPrint | .wordRange => true
  | _ => false

/-- Where the reading of parentheses stands: whether the last token takes arguments, and of each
open parenthesis, the innermost first, whether it groups. -/
structure Parens where
  takesArguments : Bool
  grouping : List Bool

namespace Parens

/-- Before the first token. -/
def start : Parens := ⟨false, []⟩

/-- Whether a token that comes next is a parenthesis that groups. One that closes does if the one
that it closes does. -/
def groups (p : Parens) : TokenKind → Bool
  | .openParen => !p.takesArguments
  | .closeParen => p.grouping.headD false
  | _ => false

/-- Where the reading stands behind a token. -/
def next (p : Parens) (k : TokenKind) : Parens where
  takesArguments := k.takesArguments
  grouping :=
    match k with
    | .openParen => (!p.takesArguments) :: p.grouping
    | .closeParen => p.grouping.tail
    | _ => p.grouping

end Parens

/-- The tokens without the parentheses that group, from the given standing on. -/
def ungroup (p : Parens) : List TokenKind → List TokenKind
  | [] => []
  | k :: ks => if p.groups k then ungroup (p.next k) ks else k :: ungroup (p.next k) ks

namespace Parser

/-! ## What a configuration holds -/

/-- The tokens of a `for` up to the parenthesis of its range. -/
def flattenFor (iterator : Ident) : List TokenKind :=
  [.wordFor, .name iterator.name, .wordIn, .wordRange, .openParen]

/-- The tokens of a head, with the colon before the body. -/
def Head.flatten : Head → List TokenKind
  | .ifThen _ condition => .wordIf :: condition.flatten ++ [.colon]
  | .ifElse _ condition body =>
    .wordIf :: condition.flatten ++ .colon :: body.flatten ++ [.wordElse, .colon]
  | .forRange _ iterator first stop =>
    flattenFor iterator ++ first.flatten ++ .comma :: stop.flatten ++ [.closeParen, .colon]
  | .whileLoop _ condition => .wordWhile :: condition.flatten ++ [.colon]

/-- The tokens of the open bodies, the outermost first. -/
def flattenOuter : List OpenBody → List TokenKind
  | [] => []
  | b :: outer => flattenOuter outer ++ Tree.flattenEach .semicolon b.before ++ b.head.flatten

/-- The tokens of the open sequences. -/
def Nest.flatten (nest : Nest) : List TokenKind :=
  flattenOuter nest.outer ++ Tree.flattenEach .semicolon nest.before

/-- The tokens before the expression that serves a purpose. -/
def Purpose.flatten : Purpose → List TokenKind
  | .statement => []
  | .assigned target => [.name target.name, .assign]
  | .item target _ before =>
    .name target.name :: .assign :: .openBracket :: Tree.flattenEach .comma before
  | .compared guard _ => [guard.word]
  | .comparand guard _ op left => guard.word :: left.flatten ++ [.relation op]
  | .rangeFirst _ iterator => flattenFor iterator
  | .rangeStop _ iterator first => flattenFor iterator ++ first.flatten ++ [.comma]
  | .printed _ => [.wordPrint, .openParen]

/-- The tokens of what waits for an operand, a parenthesis that groups not being one of them. -/
def Waiting.flatten : Waiting → List TokenKind
  | .operator left op => left.flatten ++ [.arithmetic op]
  | .group => []
  | .argument callee before =>
    .name callee.name :: .openParen :: Tree.flattenEach .comma before

/-- The tokens of all that waits for an operand, the outermost first. -/
def flattenWaiting : List Waiting → List TokenKind
  | [] => []
  | w :: waiting => flattenWaiting waiting ++ w.flatten

/-- The tokens of an open expression up to the current operand. -/
def flattenOpen (purpose : Purpose) (waiting : List Waiting) : List TokenKind :=
  purpose.flatten ++ flattenWaiting waiting

/-- The tokens that a statement has had in the given phase. -/
def Phase.flatten : Phase → List TokenKind
  | .statement => []
  | .operand purpose waiting => flattenOpen purpose waiting
  | .named purpose waiting name => flattenOpen purpose waiting ++ [.name name.name]
  | .callOpened purpose waiting callee =>
    flattenOpen purpose waiting ++ [.name callee.name, .openParen]
  | .operated purpose waiting e => flattenOpen purpose waiting ++ e.flatten
  | .assigned target => [.name target.name, .assign]
  | .listOpened target _ => [.name target.name, .assign, .openBracket]
  | .printWord _ => [.wordPrint]
  | .forWord _ => [.wordFor]
  | .forNamed _ iterator => [.wordFor, .name iterator.name]
  | .forIn _ iterator => [.wordFor, .name iterator.name, .wordIn]
  | .forRange _ iterator => [.wordFor, .name iterator.name, .wordIn, .wordRange]
  | .forClosed _ iterator first stop =>
    flattenFor iterator ++ first.flatten ++ .comma :: stop.flatten ++ [.closeParen]
  | .elseWord _ condition body =>
    .wordIf :: condition.flatten ++ .colon :: body.flatten ++ [.wordElse]
  | .stated s => s.flatten

/-- All the tokens that a configuration holds. -/
def Config.flatten : Config → List TokenKind
  | .reading nest phase => nest.flatten ++ phase.flatten
  | .finished program => program.flatten ++ [.endOfInput]

/-! ## Parentheses that are open in a configuration -/

/-- The parenthesis before the expression that serves a purpose. -/
def Purpose.grouping : Purpose → List Bool
  | .rangeFirst .. | .rangeStop .. | .printed _ => [false]
  | _ => []

/-- The parenthesis of what waits for an operand. -/
def Waiting.grouping : Waiting → List Bool
  | .operator .. => []
  | .group => [true]
  | .argument .. => [false]

/-- The parentheses that are open around the current operand. -/
def groupingOpen (purpose : Purpose) (waiting : List Waiting) : List Bool :=
  waiting.flatMap Waiting.grouping ++ purpose.grouping

/-- Where the reading of parentheses stands in the given phase. -/
def Phase.parens : Phase → Parens
  | .operand purpose waiting => ⟨false, groupingOpen purpose waiting⟩
  | .named purpose waiting _ => ⟨true, groupingOpen purpose waiting⟩
  | .callOpened purpose waiting _ => ⟨false, false :: groupingOpen purpose waiting⟩
  | .operated purpose waiting _ => ⟨false, groupingOpen purpose waiting⟩
  | .printWord _ | .forNamed .. | .forRange .. => ⟨true, []⟩
  | _ => ⟨false, []⟩

/-- Where the reading of parentheses stands. -/
def Config.parens : Config → Parens
  | .reading _ phase => phase.parens
  | .finished _ => .start

/-! ## Statements -/

variable {c c' : Config} {t : Token} {nest : Nest} {purpose : Purpose} {waiting : List Waiting}

/-- The configuration holds the tokens `held` and then `k`, unless `k` groups by `p`, and it stands
where `p` does behind `k`. -/
structure Config.Adds (c : Config) (held : List TokenKind) (p : Parens) (k : TokenKind) : Prop where
  flatten : c.flatten = if p.groups k then held else held ++ [k]
  parens : c.parens = p.next k

/-- Wherever the token makes the move, it is added behind the tokens `held` of the statement, unless
it groups by `p`. -/
def Move.Adds (move : Move) (t : Token) (held : List TokenKind) (p : Parens) : Prop :=
  ∀ nest c, move.run nest t = some c → c.Adds (nest.flatten ++ held) p t.kind

/-- What the last token was matters only to a parenthesis that opens. -/
theorem Move.Adds.of_ne_openParen {move : Move} {held : List TokenKind} {grouping : List Bool}
    (h : move.Adds t held ⟨false, grouping⟩) (ht : t.kind ≠ .openParen) (takesArguments : Bool) :
    move.Adds t held ⟨takesArguments, grouping⟩ := by
  intro nest c hrun
  obtain ⟨hflatten, hparens⟩ := h nest c hrun
  cases hk : t.kind with
  | openParen => exact absurd hk ht
  | _ =>
    rw [hk] at hflatten hparens
    exact ⟨hflatten, hparens⟩

/-- Inside one statement only its own tokens matter. -/
theorem adds_reading {phase : Phase} {held : List TokenKind} {p : Parens} {k : TokenKind}
    (hflatten : phase.flatten = if p.groups k then held else held ++ [k])
    (hparens : phase.parens = p.next k) :
    (Config.reading nest phase).Adds (nest.flatten ++ held) p k := by
  refine ⟨?_, hparens⟩
  rw [Config.flatten, hflatten]
  split
  · rfl
  · rw [List.append_assoc]

/-- A token that goes on in a statement is added to its tokens. -/
theorem adds_goesOn {next : Phase} {held : List TokenKind} {p : Parens} {k : TokenKind}
    (ht : t.kind = k) (hflatten : next.flatten = if p.groups k then held else held ++ [k])
    (hparens : next.parens = p.next k) : (Move.goesOn next).Adds t held p := by
  intro nest c hrun
  obtain rfl := Option.some.inj hrun
  rw [ht]
  exact adds_reading hflatten hparens

/-- A colon is added to the head whose body it opens. -/
theorem adds_opens {head : Head} {held : List TokenKind} (ht : t.kind = .colon)
    (hflatten : head.flatten = held ++ [.colon]) : (Move.opens head).Adds t held ⟨false, []⟩ := by
  intro nest c hrun
  obtain rfl := Option.some.inj hrun
  rw [ht]
  refine ⟨?_, rfl⟩
  simp [openBody, Config.flatten, Nest.flatten, Phase.flatten, flattenOuter, hflatten,
    Parens.groups]

/-- The tokens of a statement are those of its head and of its body. -/
theorem flatten_complete (head : Head) (body : Tree) :
    (head.complete body).flatten = head.flatten ++ body.flatten := by
  cases head <;> simp [Head.complete, Head.flatten, Tree.flatten, flattenFor]

/-- The tokens of a body are those of its statements. -/
theorem flatten_bodyOf (before : List Tree) (last : Tree) :
    (bodyOf before last).flatten = Tree.flattenEach .semicolon before ++ last.flatten := by
  cases before with
  | nil => rfl
  | cons first more => rw [bodyOf, Tree.flatten, Tree.flattenAll_append_singleton]

/-- Closing the innermost body moves its tokens into a statement, where they were. -/
theorem flattenOuter_cons (head : Head) (around : List Tree) (outer : List OpenBody)
    (before : List Tree) (last : Tree) :
    flattenOuter (⟨head, around⟩ :: outer) ++ Tree.flattenEach .semicolon before ++ last.flatten
      = flattenOuter outer ++ Tree.flattenEach .semicolon around
        ++ (head.complete (bodyOf before last)).flatten := by
  simp only [flattenOuter, flatten_complete, flatten_bodyOf, List.append_assoc]

/-- An `else` closes bodies without moving a token, and is the last token then. -/
theorem closeToElse_adds {outer : List OpenBody} {before : List Tree} {last : Tree}
    (h : closeToElse outer before last = some c) :
    c.Adds (flattenOuter outer ++ Tree.flattenEach .semicolon before ++ last.flatten) ⟨false, []⟩
      .wordElse := by
  induction outer generalizing before last with
  | nil => cases h
  | cons body outer ih =>
    obtain ⟨head, around⟩ := body
    -- closing the innermost body does not move its tokens, so the induction goes on outside of it
    rw [flattenOuter_cons]
    cases head with
    | ifThen start condition =>
      obtain rfl := Option.some.inj h
      exact adds_reading rfl rfl
    | _ => exact ih h

/-- The end of input closes all bodies without moving a token. -/
theorem flatten_closeAll (outer : List OpenBody) (before : List Tree) (last : Tree) :
    (closeAll outer before last).flatten
      = flattenOuter outer ++ Tree.flattenEach .semicolon before ++ last.flatten := by
  induction outer generalizing before last with
  | nil => simp [closeAll, programOf, Program.flatten, flattenOuter]
  | cons body outer ih => rw [closeAll, ih, flattenOuter_cons]

/-- The token behind a statement is added to what is open. -/
theorem afterStatement?_adds {s : Tree} (h : afterStatement? nest s t = some c) :
    c.Adds (nest.flatten ++ s.flatten) ⟨false, []⟩ t.kind := by
  unfold afterStatement? at h
  split at h
  next hk =>
    obtain rfl := Option.some.inj h
    rw [hk]
    exact ⟨by simp [Config.flatten, Nest.flatten, Phase.flatten, Parens.groups], rfl⟩
  next hk =>
    rw [hk]
    exact closeToElse_adds h
  next hk =>
    obtain rfl := Option.some.inj h
    rw [hk]
    exact ⟨by simp [Config.flatten, Nest.flatten, flatten_closeAll, Parens.groups], rfl⟩
  next => cases h

/-- A token that completes a statement is added behind it. -/
theorem adds_completes (s : Tree) : (Move.completes s).Adds t s.flatten ⟨false, []⟩ :=
  fun _ _ hrun => afterStatement?_adds hrun

/-! ## Expressions -/

/-- The first token of an operand is added to the open expression. -/
theorem startOperand?_adds {next : Phase} (h : startOperand? purpose waiting t = some next) :
    (Move.goesOn next).Adds t (flattenOpen purpose waiting)
      ⟨false, groupingOpen purpose waiting⟩ := by
  unfold startOperand? at h
  split at h
  case h_6 hk =>
    obtain rfl := Option.some.inj h
    -- the parenthesis groups, and is not added
    exact adds_goesOn hk (congrArg (purpose.flatten ++ ·) (List.append_nil _)) rfl
  case h_7 => cases h
  all_goals
    next hk =>
      obtain rfl := Option.some.inj h
      exact adds_goesOn hk rfl rfl

/-- Operators that take the operand leave the tokens in their order. -/
theorem flattenWaiting_giveOperand {takes : Arithmetic → Bool} {operand e : Tree}
    {rest : List Waiting} (h : giveOperand takes waiting operand = (rest, e)) :
    flattenWaiting waiting ++ operand.flatten = flattenWaiting rest ++ e.flatten := by
  fun_induction giveOperand takes waiting operand with
  | case1 left op waiting operand htakes ih =>
    rw [← ih h]
    simp [flattenWaiting, Waiting.flatten, Tree.join, Tree.flatten, Operator.kind]
  | case2 left op waiting operand htakes =>
    cases h
    rfl
  | case3 waiting operand hnot =>
    cases h
    rfl

/-- Operators that take the operand leave the parentheses open that are. -/
theorem grouping_giveOperand {takes : Arithmetic → Bool} {operand e : Tree}
    {rest : List Waiting} (h : giveOperand takes waiting operand = (rest, e)) :
    groupingOpen purpose waiting = groupingOpen purpose rest := by
  fun_induction giveOperand takes waiting operand with
  | case1 left op waiting operand htakes ih => exact ih h
  | case2 left op waiting operand htakes =>
    cases h
    rfl
  | case3 waiting operand hnot =>
    cases h
    rfl

theorem flatten_guardHead (guard : Guard) (start : Position) (condition : Tree) :
    (guard.head start condition).flatten = guard.word :: condition.flatten ++ [.colon] := by
  cases guard <;> rfl

/-- The token behind a complete expression is added to it. -/
theorem Purpose.Takes.adds {e : Tree} {move : Move} (h : purpose.Takes t e move) :
    move.Adds t (purpose.flatten ++ e.flatten) ⟨false, purpose.grouping⟩ := by
  cases h with
  | statement => exact adds_completes e
  | assigned target => exact adds_completes (.assign (target.span.to e.span) target e)
  | comparand guard start op left hk =>
    refine adds_opens hk ?_
    rw [flatten_guardHead]
    simp [Purpose.flatten, Tree.join, Tree.flatten, Operator.kind]
  | _ =>
    refine adds_goesOn ‹_› ?_ rfl
    simp [Phase.flatten, Purpose.flatten, flattenOpen, flattenWaiting, listAssignment,
      Tree.flatten, Parens.groups, Purpose.grouping]

/-- What is added behind an operand that operators have taken is added behind the operand. -/
theorem Move.Adds.of_giveOperand {takes : Arithmetic → Bool} {operand e : Tree}
    {rest : List Waiting} {move : Move} (hgive : giveOperand takes waiting operand = (rest, e))
    (h : move.Adds t (flattenOpen purpose rest ++ e.flatten) ⟨false, groupingOpen purpose rest⟩) :
    move.Adds t (flattenOpen purpose waiting ++ operand.flatten)
      ⟨false, groupingOpen purpose waiting⟩ := by
  rw [flattenOpen, List.append_assoc] at h ⊢
  rwa [flattenWaiting_giveOperand hgive, grouping_giveOperand hgive]

/-- The token behind an operand is added to it. -/
theorem TakesAfter.adds {operand : Tree} {move : Move}
    (h : TakesAfter t purpose waiting operand move) :
    move.Adds t (flattenOpen purpose waiting ++ operand.flatten)
      ⟨false, groupingOpen purpose waiting⟩ := by
  cases h with
  | operator hk hgive =>
    refine .of_giveOperand hgive (adds_goesOn hk ?_ rfl)
    simp [Phase.flatten, flattenOpen, flattenWaiting, Waiting.flatten, Parens.groups]
  -- the parenthesis is the one that groups, and is not added
  | closesGroup hk hgive =>
    refine .of_giveOperand hgive (adds_goesOn hk ?_ rfl)
    simp [Phase.flatten, flattenOpen, flattenWaiting, Waiting.flatten, groupingOpen,
      Waiting.grouping, Parens.groups]
  | nextArgument hk hgive =>
    refine .of_giveOperand hgive (adds_goesOn hk ?_ rfl)
    simp [Phase.flatten, flattenOpen, flattenWaiting, Waiting.flatten, Parens.groups]
  | closesCall hk hgive =>
    refine .of_giveOperand hgive (adds_goesOn hk ?_ rfl)
    simp [Phase.flatten, flattenOpen, flattenWaiting, Waiting.flatten, groupingOpen,
      Waiting.grouping, Parens.groups, callTree, Tree.flatten]
  | expression hgive h =>
    refine .of_giveOperand hgive ?_
    rw [flattenOpen, flattenWaiting, List.append_nil]
    exact h.adds

/-- An operand starts behind the tokens that the phase holds. -/
theorem Phase.Awaits.flatten {phase : Phase} (h : phase.Awaits purpose waiting) :
    flattenOpen purpose waiting = phase.flatten := by
  cases h <;> simp [flattenOpen, flattenWaiting, Phase.flatten, Purpose.flatten, Waiting.flatten]

/-- An operand starts inside the parentheses that the phase has open. -/
theorem Phase.Awaits.parens {phase : Phase} (h : phase.Awaits purpose waiting) :
    ⟨false, groupingOpen purpose waiting⟩ = phase.parens := by
  cases h <;> rfl

/-! ## Tokens -/

/-- Every token that is taken is added to what the phase holds. -/
theorem Phase.Takes.adds {phase : Phase} {move : Move} (h : phase.Takes t move) :
    move.Adds t phase.flatten phase.parens := by
  cases h with
  | operand hawaits h =>
    rw [← hawaits.flatten, ← hawaits.parens]
    exact startOperand?_adds h
  -- a parenthesis behind a name is the only token that takes notice of the name
  | afterName hne h => exact h.adds.of_ne_openParen hne true
  | afterOperand h => exact h.adds
  | stated => exact adds_completes _
  | guard guard hk => cases guard <;> exact adds_goesOn hk rfl rfl
  | opensCall hk => exact adds_goesOn hk (by simp [Phase.flatten, Phase.parens, Parens.groups]) rfl
  | noArguments hk =>
    refine adds_goesOn hk ?_ rfl
    simp [Phase.flatten, callTree, Tree.flatten, Tree.flattenAll, Phase.parens, Parens.groups]
  | opensLoop hk => exact adds_opens hk (by simp [Head.flatten, Phase.flatten])
  | opensElse hk => exact adds_opens hk (by simp [Head.flatten, Phase.flatten])
  | _ => exact adds_goesOn ‹_› rfl rfl

/-- A token that is taken is added to what a configuration holds, unless it is a parenthesis that
groups. -/
theorem advance?_adds (h : c.advance? t = some c') : c'.Adds c.flatten c.parens t.kind := by
  obtain ⟨nest, phase, move, rfl, htakes, hrun⟩ := exists_takes h
  exact htakes.adds nest c' hrun

/-- Tokens that are read are added to what a configuration holds, without the parentheses that
group. -/
theorem read?_flatten {tokens : List Token} (h : c.read? tokens = some c') :
    c'.flatten = c.flatten ++ ungroup c.parens (kinds tokens) := by
  induction tokens generalizing c with
  | nil =>
    obtain rfl := Option.some.inj h
    rw [kinds_nil, ungroup, List.append_nil]
  | cons t rest ih =>
    rw [read?_cons, Option.bind_eq_some_iff] at h
    obtain ⟨next, hnext, hrest⟩ := h
    obtain ⟨hflatten, hparens⟩ := advance?_adds hnext
    rw [ih hrest, hflatten, hparens, kinds_cons, ungroup]
    split
    · rfl
    · rw [List.append_assoc, List.singleton_append]

end Parser

/-- A parsed program, read off from left to right, is the tokens it was parsed from, without the end
of input and without the parentheses that group. -/
theorem parse_flatten {tokens : List Token} {program : Program}
    (h : parse tokens = .ok program) :
    ∃ body stop, tokens = body ++ [stop] ∧ stop.kind = .endOfInput
      ∧ program.flatten = ungroup .start (kinds body) := by
  obtain ⟨body, stop, c, rfl, hbody, hstop⟩ := Parser.exists_last h
  have hend : stop.kind = .endOfInput := (Parser.exists_completes hstop).1
  have hheld : c.flatten = ungroup .start (kinds body) := Parser.read?_flatten hbody
  have hadds := (Parser.advance?_adds hstop).flatten
  rw [hend] at hadds
  have hflatten : program.flatten = c.flatten := (List.append_singleton_inj.mp hadds).1
  exact ⟨body, stop, rfl, hend, hflatten.trans hheld⟩

/-- `print((a-f((b),a)))`, where two of the four pairs of parentheses group. -/
def groupedPrint : List Token := (tokenize ("print((a-f((b),a)))" : Text)).tokens

theorem groupedPrint_flatten :
    ∃ program, parse groupedPrint = .ok program
      ∧ (∃ body stop, groupedPrint = body ++ [stop] ∧ stop.kind = .endOfInput
        ∧ program.flatten = ungroup .start (kinds body))
      ∧ program.flatten
        = [.wordPrint, .openParen, .name [0x61], .arithmetic .sub, .name [0x66], .openParen,
          .name [0x62], .comma, .name [0x61], .closeParen, .closeParen] :=
  ⟨_, rfl, parse_flatten rfl, rfl⟩

end Plume
