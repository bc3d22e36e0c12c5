import Plume.Tree.Parser

/-!
# What a token does

A token that is taken in a phase makes one of three moves: it goes on in the same sequence, it opens
a body, or it finds a statement complete. Which move it makes is the same in all surroundings; what
is open around the phase matters only once a statement is complete.

`Phase.Takes` has one case for each thing that a taken token can do, and `advance?_does` says that
there are no others. What every token keeps is shown by cases on `Phase.Takes`, from `exists_takes`.
-/

namespace Plume.Parser

/-! ## Moves -/

/-- What a token does in a phase. -/
inductive Move where
  /-- Goes on in the same sequence. -/
  | goesOn (next : Phase)
  /-- Opens a body. -/
  | opens (head : Head)
  /-- Finds a statement complete, and is the token after it. -/
  | completes (statement : Tree)

/-- The configuration after a move that the token `t` makes in the sequences `nest`. -/
def Move.run (nest : Nest) (t : Token) : Move → Option Config
  | .goesOn next => some (.reading nest next)
  | .opens head => some (openBody nest head)
  | .completes statement => afterStatement? nest statement t

/-- A token is refused in all surroundings, or makes the same of the given moves in all of them. -/
def Does (t : Token) (moves : Move → Prop) (step : Nest → Option Config) : Prop :=
  (∀ nest, step nest = none) ∨ ∃ move, moves move ∧ ∀ nest, step nest = move.run nest t

variable {t : Token} {moves moves' : Move → Prop} {step : Nest → Option Config}

theorem does_none (h : ∀ nest, step nest = none) : Does t moves step := .inl h

theorem does_move {move : Move} (hmove : moves move) (h : ∀ nest, step nest = move.run nest t) :
    Does t moves step := .inr ⟨move, hmove, h⟩

/-- A token that makes one of some moves makes one of more. -/
theorem Does.mono (h : Does t moves step) (hmoves : ∀ move, moves move → moves' move) :
    Does t moves' step := by
  obtain h | ⟨move, hmove, h⟩ := h
  · exact .inl h
  · exact .inr ⟨move, hmoves move hmove, h⟩

/-! ## Expressions -/

/-- What the token after a complete expression does, depending on what the expression is for. -/
inductive Purpose.Takes (t : Token) (e : Tree) : Purpose → Move → Prop
  | statement : Takes t e .statement (.completes e)
  | assigned (target : Ident) :
      Takes t e (.assigned target) (.completes (.assign (target.span.to e.span) target e))
  | nextItem (target : Ident) (opened : Position) (before : List Tree) : t.kind = .comma →
      Takes t e (.item target opened before)
        (.goesOn (.operand (.item target opened (before ++ [e])) []))
  | lastItem (target : Ident) (opened : Position) (before : List Tree) : t.kind = .closeBracket →
      Takes t e (.item target opened before)
        (.goesOn (.stated (listAssignment target opened (before ++ [e]) t)))
  | compared (guard : Guard) (start : Position) {op : Relation} : t.kind = .relation op →
      Takes t e (.compared guard start) (.goesOn (.operand (.comparand guard start op e) []))
  | comparand (guard : Guard) (start : Position) (op : Relation) (left : Tree) : t.kind = .colon →
      Takes t e (.comparand guard start op left)
        (.opens (guard.head start (.join (.relation op) left e)))
  | rangeFirst (start : Position) (iterator : Ident) : t.kind = .comma →
      Takes t e (.rangeFirst start iterator) (.goesOn (.operand (.rangeStop start iterator e) []))
  | rangeStop (start : Position) (iterator : Ident) (first : Tree) : t.kind = .closeParen →
      Takes t e (.rangeStop start iterator first) (.goesOn (.forClosed start iterator first e))
  | printed (start : Position) : t.kind = .closeParen →
      Takes t e (.printed start) (.goesOn (.stated (.print ⟨start, t.span.stop⟩ e)))

/-- What the token after an operand does: it joins the operand to another one, goes on with or
closes what stands around it, or is the token after the whole expression. -/
inductive TakesAfter (t : Token) (purpose : Purpose) (waiting : List Waiting) (operand : Tree) :
    Move → Prop
  | operator {op : Arithmetic} {rest : List Waiting} {e : Tree} : t.kind = .arithmetic op →
      giveOperand (fun earlier => isProduct earlier || !isProduct op) waiting operand = (rest, e) →
        TakesAfter t purpose waiting operand (.goesOn (.operand purpose (.operator e op :: rest)))
  | closesGroup {rest : List Waiting} {e : Tree} : t.kind = .closeParen →
      giveOperand (fun _ => true) waiting operand = (.group :: rest, e) →
        TakesAfter t purpose waiting operand (.goesOn (.operated purpose rest e))
  | nextArgument {callee : Ident} {before : List Tree} {rest : List Waiting} {e : Tree} :
      t.kind = .comma →
      giveOperand (fun _ => true) waiting operand = (.argument callee before :: rest, e) →
        TakesAfter t purpose waiting operand
          (.goesOn (.operand purpose (.argument callee (before ++ [e]) :: rest)))
  | closesCall {callee : Ident} {before : List Tree} {rest : List Waiting} {e : Tree} :
      t.kind = .closeParen →
      giveOperand (fun _ => true) waiting operand = (.argument callee before :: rest, e) →
        TakesAfter t purpose waiting operand
          (.goesOn (.operated purpose rest (callTree callee (before ++ [e]) t)))
  | expression {e : Tree} {move : Move} :
      giveOperand (fun _ => true) waiting operand = ([], e) → purpose.Takes t e move →
        TakesAfter t purpose waiting operand move

/-- The phases in which an operand can start, with what it is for and what waits for it. -/
inductive Phase.Awaits : Phase → Purpose → List Waiting → Prop
  | statement : Awaits .statement .statement []
  | operand (purpose : Purpose) (waiting : List Waiting) :
      Awaits (.operand purpose waiting) purpose waiting
  | argument (purpose : Purpose) (waiting : List Waiting) (callee : Ident) :
      Awaits (.callOpened purpose waiting callee) purpose (.argument callee [] :: waiting)
  | assigned (target : Ident) : Awaits (.assigned target) (.assigned target) []
  | item (target : Ident) (opened : Position) :
      Awaits (.listOpened target opened) (.item target opened []) []

/-! ## Phases -/

/-- The word before a condition. -/
def Guard.word : Guard → TokenKind
  | .ifWord => .wordIf
  | .whileWord => .wordWhile

/-- What a token does that is taken in a phase. -/
inductive Phase.Takes (t : Token) : Phase → Move → Prop
  | guard (guard : Guard) : t.kind = guard.word →
      Takes t .statement (.goesOn (.operand (.compared guard t.span.start) []))
  | wordFor : t.kind = .wordFor → Takes t .statement (.goesOn (.forWord t.span.start))
  | wordPrint : t.kind = .wordPrint → Takes t .statement (.goesOn (.printWord t.span.start))
  | operand {phase next : Phase} {purpose : Purpose} {waiting : List Waiting} :
      phase.Awaits purpose waiting → startOperand? purpose waiting t = some next →
        Takes t phase (.goesOn next)
  | opensCall {purpose : Purpose} {waiting : List Waiting} {name : Ident} : t.kind = .openParen →
      Takes t (.named purpose waiting name) (.goesOn (.callOpened purpose waiting name))
  | assigns {name : Ident} : t.kind = .assign →
      Takes t (.named .statement [] name) (.goesOn (.assigned name))
  | afterName {purpose : Purpose} {waiting : List Waiting} {name : Ident} {move : Move} :
      t.kind ≠ .openParen → TakesAfter t purpose waiting (.ofIdent name) move →
        Takes t (.named purpose waiting name) move
  | afterOperand {purpose : Purpose} {waiting : List Waiting} {e : Tree} {move : Move} :
      TakesAfter t purpose waiting e move → Takes t (.operated purpose waiting e) move
  | noArguments {purpose : Purpose} {waiting : List Waiting} {callee : Ident} :
      t.kind = .closeParen → Takes t (.callOpened purpose waiting callee)
        (.goesOn (.operated purpose waiting (callTree callee [] t)))
  | opensList {target : Ident} : t.kind = .openBracket →
      Takes t (.assigned target) (.goesOn (.listOpened target t.span.start))
  | noItems {target : Ident} {opened : Position} : t.kind = .closeBracket →
      Takes t (.listOpened target opened) (.goesOn (.stated (listAssignment target opened [] t)))
  | opensPrint {start : Position} : t.kind = .openParen →
      Takes t (.printWord start) (.goesOn (.operand (.printed start) []))
  | iterator {start : Position} {name : Text} : t.kind = .name name →
      Takes t (.forWord start) (.goesOn (.forNamed start ⟨t.span, name⟩))
  | wordIn {start : Position} {iterator : Ident} : t.kind = .wordIn →
      Takes t (.forNamed start iterator) (.goesOn (.forIn start iterator))
  | wordRange {start : Position} {iterator : Ident} : t.kind = .wordRange →
      Takes t (.forIn start iterator) (.goesOn (.forRange start iterator))
  | opensRange {start : Position} {iterator : Ident} : t.kind = .openParen →
      Takes t (.forRange start iterator) (.goesOn (.operand (.rangeFirst start iterator) []))
  | opensLoop {start : Position} {iterator : Ident} {first stop : Tree} : t.kind = .colon →
      Takes t (.forClosed start iterator first stop) (.opens (.forRange start iterator first stop))
  | opensElse {start : Position} {condition body : Tree} : t.kind = .colon →
      Takes t (.elseWord start condition body) (.opens (.ifElse start condition body))
  | stated {s : Tree} : Takes t (.stated s) (.completes s)

/-! ## There are no other moves -/

/-- The token behind a complete expression does what the purpose of the expression asks for. -/
theorem afterExpression?_does (purpose : Purpose) (e : Tree) (t : Token) :
    Does t (purpose.Takes t e) fun nest => afterExpression? nest purpose e t := by
  obtain ⟨kind, text, span⟩ := t
  cases purpose with
  | statement => exact does_move .statement fun _ => rfl
  | assigned target => exact does_move (.assigned target) fun _ => rfl
  -- every other purpose has one kind of token, or two, that can follow the expression
  | item target opened before =>
    cases kind with
    | comma => exact does_move (.nextItem target opened before rfl) fun _ => rfl
    | closeBracket => exact does_move (.lastItem target opened before rfl) fun _ => rfl
    | _ => exact does_none fun _ => rfl
  | compared guard start =>
    cases kind with
    | relation op => exact does_move (.compared guard start rfl) fun _ => rfl
    | _ => exact does_none fun _ => rfl
  | comparand guard start op left =>
    cases kind with
    | colon => exact does_move (.comparand guard start op left rfl) fun _ => rfl
    | _ => exact does_none fun _ => rfl
  | rangeFirst start iterator =>
    cases kind with
    | comma => exact does_move (.rangeFirst start iterator rfl) fun _ => rfl
    | _ => exact does_none fun _ => rfl
  | rangeStop start iterator first =>
    cases kind with
    | closeParen => exact does_move (.rangeStop start iterator first rfl) fun _ => rfl
    | _ => exact does_none fun _ => rfl
  | printed start =>
    cases kind with
    | closeParen => exact does_move (.printed start rfl) fun _ => rfl
    | _ => exact does_none fun _ => rfl

/-- The token behind an operand does one of the things that `TakesAfter` lists. -/
theorem afterOperand?_does (purpose : Purpose) (waiting : List Waiting) (operand : Tree)
    (t : Token) : Does t (TakesAfter t purpose waiting operand)
      fun nest => afterOperand? nest purpose waiting operand t := by
  cases hgive : giveOperand (fun _ => true) waiting operand with
  | mk rest e =>
    -- no operator takes the operand any more, so the token is for what stands around it, or, where
    -- nothing does, for the expression
    have hexpression : rest = [] → Does t (TakesAfter t purpose waiting operand)
        fun nest => afterExpression? nest purpose e t := by
      rintro rfl
      exact (afterExpression?_does purpose e t).mono fun _ hmove => .expression hgive hmove
    cases hk : t.kind with
    | arithmetic op =>
      refine does_move (.operator hk rfl) fun nest => ?_
      simp only [afterOperand?, hk]
      rfl
    | closeParen =>
      rcases rest with _ | ⟨_ | _ | ⟨callee, before⟩, rest⟩ <;> simp only [afterOperand?, hk, hgive]
      · exact hexpression rfl
      · exact does_none fun _ => rfl
      · exact does_move (.closesGroup hk hgive) fun _ => rfl
      · exact does_move (.closesCall hk hgive) fun _ => rfl
    | comma =>
      rcases rest with _ | ⟨_ | _ | ⟨callee, before⟩, rest⟩ <;> simp only [afterOperand?, hk, hgive]
      · exact hexpression rfl
      · exact does_none fun _ => rfl
      · exact does_none fun _ => rfl
      · exact does_move (.nextArgument hk hgive) fun _ => rfl
    | _ =>
      rcases rest with _ | ⟨_ | _ | ⟨callee, before⟩, rest⟩ <;> simp only [afterOperand?, hk, hgive]
      · exact hexpression rfl
      · exact does_none fun _ => rfl
      · exact does_none fun _ => rfl
      · exact does_none fun _ => rfl

/-- Where an operand can start, its first token goes on in the same sequence. -/
theorem startOperand?_does {phase : Phase} {purpose : Purpose} {waiting : List Waiting}
    (h : phase.Awaits purpose waiting) (t : Token) :
    Does t (phase.Takes t) fun nest => (startOperand? purpose waiting t).map (.reading nest) := by
  cases hstart : startOperand? purpose waiting t with
  | none => exact does_none fun _ => rfl
  | some next => exact does_move (.operand h hstart) fun _ => rfl

/-- A token that is taken in a phase does one of the things that `Phase.Takes` lists, and the same
in all surroundings. -/
theorem advance?_does (phase : Phase) (t : Token) :
    Does t (phase.Takes t) fun nest => phase.advance? nest t := by
  obtain ⟨kind, text, span⟩ := t
  cases phase with
  -- the phases in which an operand can start take one or more other tokens besides
  | statement =>
    cases kind with
    | wordIf => exact does_move (.guard .ifWord rfl) fun _ => rfl
    | wordWhile => exact does_move (.guard .whileWord rfl) fun _ => rfl
    | wordFor => exact does_move (.wordFor rfl) fun _ => rfl
    | wordPrint => exact does_move (.wordPrint rfl) fun _ => rfl
    | _ => exact startOperand?_does .statement _
  | operand purpose waiting => exact startOperand?_does (.operand purpose waiting) _
  | callOpened purpose waiting callee =>
    cases kind with
    | closeParen => exact does_move (.noArguments rfl) fun _ => rfl
    | _ => exact startOperand?_does (.argument purpose waiting callee) _
  | assigned target =>
    cases kind with
    | openBracket => exact does_move (.opensList rfl) fun _ => rfl
    | _ => exact startOperand?_does (.assigned target) _
  | listOpened target opened =>
    cases kind with
    | closeBracket => exact does_move (.noItems rfl) fun _ => rfl
    | _ => exact startOperand?_does (.item target opened) _
  -- a name may still become a call or, at the start of a statement, an assignment
  | named purpose waiting name =>
    have hoperand : kind ≠ .openParen → Does ⟨kind, text, span⟩
        (Phase.Takes ⟨kind, text, span⟩ (.named purpose waiting name))
        fun nest => afterOperand? nest purpose waiting (.ofIdent name) ⟨kind, text, span⟩ :=
      fun hne => (afterOperand?_does purpose waiting _ _).mono fun _ hmove => .afterName hne hmove
    cases kind with
    | openParen => exact does_move (.opensCall rfl) fun _ => rfl
    | assign =>
      cases purpose with
      | statement =>
        cases waiting with
        | nil => exact does_move (.assigns rfl) fun _ => rfl
        | cons w waiting => exact hoperand (by rintro ⟨⟩)
      | _ => exact hoperand (by rintro ⟨⟩)
    | _ =>
      simp only [Phase.advance?]
      exact hoperand (by rintro ⟨⟩)
  | operated purpose waiting e =>
    exact (afterOperand?_does purpose waiting e _).mono fun _ hmove => .afterOperand hmove
  -- the others take a single token
  | printWord start =>
    cases kind with
    | openParen => exact does_move (.opensPrint rfl) fun _ => rfl
    | _ => exact does_none fun _ => rfl
  | forWord start =>
    cases kind with
    | name name => exact does_move (.iterator rfl) fun _ => rfl
    | _ => exact does_none fun _ => rfl
  | forNamed start iterator =>
    cases kind with
    | wordIn => exact does_move (.wordIn rfl) fun _ => rfl
    | _ => exact does_none fun _ => rfl
  | forIn start iterator =>
    cases kind with
    | wordRange => exact does_move (.wordRange rfl) fun _ => rfl
    | _ => exact does_none fun _ => rfl
  | forRange start iterator =>
    cases kind with
    | openParen => exact does_move (.opensRange rfl) fun _ => rfl
    | _ => exact does_none fun _ => rfl
  | forClosed start iterator first stop =>
    cases kind with
    | colon => exact does_move (.opensLoop rfl) fun _ => rfl
    | _ => exact does_none fun _ => rfl
  | elseWord start condition body =>
    cases kind with
    | colon => exact does_move (.opensElse rfl) fun _ => rfl
    | _ => exact does_none fun _ => rfl
  | stated s => exact does_move .stated fun _ => rfl

/-- A token that is taken makes a move, and makes it in all surroundings. -/
theorem exists_move {nest : Nest} {phase : Phase} {c : Config}
    (h : phase.advance? nest t = some c) : ∃ move,
      phase.Takes t move ∧ ∀ nest, phase.advance? nest t = move.run nest t := by
  obtain hnone | hmove := advance?_does phase t
  · cases (hnone nest).symm.trans h
  · exact hmove

/-- A configuration that takes a token is that of a phase, and goes where the token moves it. -/
theorem exists_takes {c c' : Config} (h : c.advance? t = some c') : ∃ nest phase move,
    c = .reading nest phase ∧ phase.Takes t move ∧ move.run nest t = some c' := by
  cases c with
  | finished program => cases h
  | reading nest phase =>
    obtain ⟨move, hmove, hrun⟩ := exists_move h
    exact ⟨nest, phase, move, rfl, hmove, (hrun nest).symm.trans h⟩

end Plume.Parser
