import Plume.Proofs.Canonical
import Plume.Proofs.Placement
import Plume.Proofs.Reading

/-!
# Parsed trees are canonical

`Config.Sound` says that everything a configuration holds is canonical. Its heart is `Nest.Sound`:
what stands complete in an open sequence has no body, for a body that is complete is closed together
with all bodies around it up to an `else` or the end of input. `Phase.Takes.sound` goes through what
a token can do, and `advance?_sound` is the step; the program of a finished configuration is then
canonical by induction on the tokens.
-/

namespace Plume

namespace Parser

open Plume.Tree

variable {c c' : Config} {t : Token} {nest : Nest} {purpose : Purpose} {waiting : List Waiting}

/-! ## What a configuration may hold -/

/-- A head whose parts are canonical, and whose `else` is its own. -/
def Head.Sound : Head → Prop
  | .ifThen _ condition => IsCondition condition
  | .ifElse _ condition body => IsCondition condition ∧ IsBody body ∧ body.endsOpen = false
  | .forRange _ _ first stop => IsExpression first ∧ IsExpression stop
  | .whileLoop _ condition => IsCondition condition

/-- A head with statements without bodies before it. -/
structure OpenBody.Sound (b : OpenBody) : Prop where
  head : b.head.Sound
  before : ∀ s ∈ b.before, IsSimple s

/-- Sequences in which no statement has a body but the open ones. -/
structure Nest.Sound (nest : Nest) : Prop where
  before : ∀ s ∈ nest.before, IsSimple s
  outer : ∀ b ∈ nest.outer, b.Sound

/-- A purpose that holds nothing but expressions. -/
def Purpose.Sound : Purpose → Prop
  | .item _ _ before => ∀ e ∈ before, IsExpression e
  | .comparand _ _ _ left => IsExpression left
  | .rangeStop _ _ first => IsExpression first
  | _ => True

/-- Something that waits, and holds nothing but expressions. -/
def Waiting.Sound : Waiting → Prop
  | .operator left _ => IsExpression left
  | .group => True
  | .argument _ before => ∀ e ∈ before, IsExpression e

/-- A phase that holds nothing but what may stand there. -/
def Phase.Sound : Phase → Prop
  | .operand purpose waiting => purpose.Sound ∧ ∀ w ∈ waiting, w.Sound
  | .named purpose waiting _ => purpose.Sound ∧ ∀ w ∈ waiting, w.Sound
  | .callOpened purpose waiting _ => purpose.Sound ∧ ∀ w ∈ waiting, w.Sound
  | .operated purpose waiting e => purpose.Sound ∧ (∀ w ∈ waiting, w.Sound) ∧ IsExpression e
  | .forClosed _ _ first stop => IsExpression first ∧ IsExpression stop
  | .elseWord _ condition body => IsCondition condition ∧ IsBody body ∧ body.endsOpen = false
  | .stated s => IsSimple s
  | _ => True

/-- A move that adds nothing but what may stand there. -/
def Move.Sound : Move → Prop
  | .goesOn next => next.Sound
  | .opens head => head.Sound
  | .completes s => IsSimple s

/-- A configuration that holds nothing but canonical trees. -/
def Config.Sound : Config → Prop
  | .reading nest phase => nest.Sound ∧ phase.Sound
  | .finished program => program.IsCanonical

/-! ## Bodies -/

/-- A statement without a body may follow others in the same sequence. -/
theorem isSimple_append {before : List Tree} {s : Tree} (hbefore : ∀ s ∈ before, IsSimple s)
    (hs : IsSimple s) : ∀ s' ∈ before ++ [s], IsSimple s' := by
  intro s' hs'
  rcases List.mem_append.mp hs' with h | h
  · exact hbefore s' h
  · obtain rfl := List.mem_singleton.mp h
    exact hs

/-- The last statement of a sequence is the only one that may have a body. -/
theorem isStatement_append {before : List Tree} {last : Tree} (hbefore : ∀ s ∈ before, IsSimple s)
    (hlast : IsStatement last) : ∀ s ∈ before ++ [last], IsStatement s := by
  intro s hs
  rcases List.mem_append.mp hs with h | h
  · exact (hbefore s h).statement
  · obtain rfl := List.mem_singleton.mp h
    exact hlast

/-- None but the last statement of a sequence has a body. -/
theorem not_isCompound_dropLast {before : List Tree} {last : Tree}
    (hbefore : ∀ s ∈ before, IsSimple s) :
    ∀ s ∈ (before ++ [last]).dropLast, s.isCompound = false := by
  rw [List.dropLast_append_cons, List.dropLast_singleton, List.append_nil]
  exact fun s hs => (hbefore s hs).notCompound

/-- What an open sequence holds is a body as soon as its last statement is complete. -/
theorem isBody_bodyOf {before : List Tree} {last : Tree} (hbefore : ∀ s ∈ before, IsSimple s)
    (hlast : IsStatement last) : IsBody (bodyOf before last) := by
  cases before with
  | nil => exact .single hlast
  | cons first more =>
    refine .block _ ?_ (isStatement_append hbefore hlast) (not_isCompound_dropLast hbefore)
    simp

/-- A body ends in an `if` that can take an `else` exactly if its last statement does. -/
theorem endsOpen_bodyOf (before : List Tree) (last : Tree) :
    (bodyOf before last).endsOpen = last.endsOpen := by
  cases before with
  | nil => rfl
  | cons first more => rw [bodyOf, endsOpen, lastEndsOpen_append_singleton]

/-- A head and its body make up a statement. -/
theorem isStatement_complete {head : Head} {body : Tree} (hhead : head.Sound)
    (hbody : IsBody body) :
    IsStatement (head.complete body) := by
  cases head with
  | ifThen start condition => exact .ifThen _ hhead hbody
  | ifElse start condition first => exact .ifElse _ hhead.1 hhead.2.1 hhead.2.2 hbody
  | forRange start iterator first stop => exact .forRange _ _ hhead.1 hhead.2 hbody
  | whileLoop start condition => exact .whileLoop _ hhead hbody

/-- An `else` closes the bodies up to its `if`. None of them ends in an `if` that could have taken
it. -/
theorem closeToElse_sound {outer : List OpenBody} {before : List Tree} {last : Tree}
    (houter : ∀ b ∈ outer, b.Sound) (hbefore : ∀ s ∈ before, IsSimple s)
    (hlast : IsStatement last) (hends : last.endsOpen = false)
    (h : closeToElse outer before last = some c) : c.Sound := by
  induction outer generalizing before last with
  | nil => cases h
  | cons b outer ih =>
    obtain ⟨head, around⟩ := b
    obtain ⟨⟨hhead, haround⟩, hothers⟩ := List.forall_mem_cons.mp houter
    have hbody := isBody_bodyOf hbefore hlast
    have hstatement := isStatement_complete hhead hbody
    have hopen : (bodyOf before last).endsOpen = false := (endsOpen_bodyOf before last).trans hends
    -- an `if` that has no `else` yet takes this one; every other head is closed together with its
    -- body
    cases head with
    | ifThen start condition =>
      obtain rfl := Option.some.inj h
      exact ⟨⟨haround, hothers⟩, hhead, hbody, hopen⟩
    | ifElse start condition first => exact ih hothers haround hstatement hopen h
    | forRange start iterator first stop => exact ih hothers haround hstatement hopen h
    | whileLoop start condition => exact ih hothers haround hstatement hopen h

/-- The end of input closes all bodies, and what comes out is canonical. -/
theorem closeAll_isCanonical {outer : List OpenBody} {before : List Tree} {last : Tree}
    (houter : ∀ b ∈ outer, b.Sound) (hbefore : ∀ s ∈ before, IsSimple s)
    (hlast : IsStatement last) : (closeAll outer before last).IsCanonical := by
  induction outer generalizing before last with
  | nil =>
    exact ⟨by simp [closeAll, programOf], isStatement_append hbefore hlast,
      not_isCompound_dropLast hbefore⟩
  | cons b outer ih =>
    obtain ⟨⟨hhead, haround⟩, hothers⟩ := List.forall_mem_cons.mp houter
    exact ih hothers haround (isStatement_complete hhead (isBody_bodyOf hbefore hlast))

/-- The token behind a statement keeps the open sequences sound. -/
theorem afterStatement?_sound {s : Tree} (hnest : nest.Sound) (hs : IsSimple s)
    (h : afterStatement? nest s t = some c) : c.Sound := by
  unfold afterStatement? at h
  split at h
  · obtain rfl := Option.some.inj h
    exact ⟨⟨isSimple_append hnest.before hs, hnest.outer⟩, trivial⟩
  · exact closeToElse_sound hnest.outer hnest.before hs.statement hs.endsOpen h
  · obtain rfl := Option.some.inj h
    exact closeAll_isCanonical hnest.outer hnest.before hs.statement
  · cases h

/-- A sound move leads from sound sequences to a sound configuration. -/
theorem Move.Sound.run {move : Move} (hmove : move.Sound) (hnest : nest.Sound)
    (h : move.run nest t = some c) : c.Sound := by
  cases move with
  | goesOn next =>
    obtain rfl := Option.some.inj h
    exact ⟨hnest, hmove⟩
  | opens head =>
    obtain rfl := Option.some.inj h
    exact ⟨⟨by simp, List.forall_mem_cons.mpr ⟨⟨hmove, hnest.before⟩, hnest.outer⟩⟩, trivial⟩
  | completes s => exact afterStatement?_sound hnest hmove h

/-! ## Expressions -/

/-- Items and arguments are expressions, also with one more of them. -/
theorem isExpression_append {before : List Tree} {e : Tree} (hbefore : ∀ e ∈ before, IsExpression e)
    (he : IsExpression e) : ∀ e' ∈ before ++ [e], IsExpression e' := by
  intro e' he'
  rcases List.mem_append.mp he' with h | h
  · exact hbefore e' h
  · obtain rfl := List.mem_singleton.mp h
    exact he

/-- The first token of an operand is an expression on its own, a name or a parenthesis. -/
theorem startOperand?_sound {phase : Phase} (hpurpose : purpose.Sound)
    (hwaiting : ∀ w ∈ waiting, w.Sound) (h : startOperand? purpose waiting t = some phase) :
    phase.Sound := by
  unfold startOperand? at h
  split at h <;> cases h
  · exact ⟨hpurpose, hwaiting, .number _ _⟩
  · exact ⟨hpurpose, hwaiting, .string _ _⟩
  · exact ⟨hpurpose, hwaiting, .boolean _ _⟩
  · exact ⟨hpurpose, hwaiting, .boolean _ _⟩
  · exact ⟨hpurpose, hwaiting⟩
  · exact ⟨hpurpose, List.forall_mem_cons.mpr ⟨trivial, hwaiting⟩⟩

/-- Operators that take their right operand make up expressions. -/
theorem giveOperand_sound {takes : Arithmetic → Bool} {operand e : Tree} {rest : List Waiting}
    (hwaiting : ∀ w ∈ waiting, w.Sound) (hoperand : IsExpression operand)
    (h : giveOperand takes waiting operand = (rest, e)) :
    (∀ w ∈ rest, w.Sound) ∧ IsExpression e := by
  fun_induction giveOperand takes waiting operand with
  | case1 left op waiting operand htakes ih =>
    obtain ⟨hleft, hwaiting⟩ := List.forall_mem_cons.mp hwaiting
    exact ih hwaiting (.binary _ _ hleft hoperand) h
  | case2 left op waiting operand htakes =>
    cases h
    exact ⟨hwaiting, hoperand⟩
  | case3 waiting operand hnot =>
    cases h
    exact ⟨hwaiting, hoperand⟩

/-- The token behind a complete expression makes a sound move. -/
theorem Purpose.Takes.sound {e : Tree} {move : Move} (h : purpose.Takes t e move)
    (hpurpose : purpose.Sound) (he : IsExpression e) : move.Sound := by
  cases h with
  | statement => exact he.isSimple
  | assigned target => exact ⟨.assign _ _ he, rfl⟩
  | nextItem => exact ⟨isExpression_append hpurpose he, by simp⟩
  | lastItem => exact ⟨.assignList _ _ _ (isExpression_append hpurpose he), rfl⟩
  | compared => exact ⟨he, by simp⟩
  | comparand guard => cases guard <;> exact .compare _ _ hpurpose he
  | rangeFirst => exact ⟨he, by simp⟩
  | rangeStop => exact ⟨hpurpose, he⟩
  | printed => exact ⟨.print _ he, rfl⟩

/-- The token behind an operand makes a sound move. -/
theorem TakesAfter.sound {operand : Tree} {move : Move}
    (h : TakesAfter t purpose waiting operand move) (hpurpose : purpose.Sound)
    (hwaiting : ∀ w ∈ waiting, w.Sound) (hoperand : IsExpression operand) : move.Sound := by
  cases h with
  | operator _ hgive =>
    obtain ⟨hrest, he⟩ := giveOperand_sound hwaiting hoperand hgive
    exact ⟨hpurpose, List.forall_mem_cons.mpr ⟨he, hrest⟩⟩
  | closesGroup _ hgive =>
    obtain ⟨haround, he⟩ := giveOperand_sound hwaiting hoperand hgive
    exact ⟨hpurpose, (List.forall_mem_cons.mp haround).2, he⟩
  | nextArgument _ hgive =>
    obtain ⟨haround, he⟩ := giveOperand_sound hwaiting hoperand hgive
    obtain ⟨hbefore, hrest⟩ := List.forall_mem_cons.mp haround
    exact ⟨hpurpose, List.forall_mem_cons.mpr ⟨isExpression_append hbefore he, hrest⟩⟩
  | closesCall _ hgive =>
    obtain ⟨haround, he⟩ := giveOperand_sound hwaiting hoperand hgive
    obtain ⟨hbefore, hrest⟩ := List.forall_mem_cons.mp haround
    exact ⟨hpurpose, hrest, .call _ _ (isExpression_append hbefore he)⟩
  | expression hgive h => exact h.sound hpurpose (giveOperand_sound hwaiting hoperand hgive).2

/-- What an operand is waited for by is sound if its phase is. -/
theorem Phase.Awaits.sound {phase : Phase} (h : phase.Awaits purpose waiting)
    (hphase : phase.Sound) : purpose.Sound ∧ ∀ w ∈ waiting, w.Sound := by
  cases h with
  | statement => exact ⟨trivial, by simp⟩
  | operand => exact hphase
  | argument =>
    exact ⟨hphase.1, List.forall_mem_cons.mpr ⟨by simp [Waiting.Sound], hphase.2⟩⟩
  | assigned => exact ⟨trivial, by simp⟩
  | item => exact ⟨by simp [Purpose.Sound], by simp⟩

/-! ## Tokens -/

/-- Every token that is taken makes a sound move. -/
theorem Phase.Takes.sound {phase : Phase} {move : Move} (h : phase.Takes t move)
    (hphase : phase.Sound) : move.Sound := by
  cases h with
  | operand hawaits h =>
    obtain ⟨hpurpose, hwaiting⟩ := hawaits.sound hphase
    exact startOperand?_sound hpurpose hwaiting h
  | afterName _ h => exact h.sound hphase.1 hphase.2 (.reference _ _)
  | afterOperand h => exact h.sound hphase.1 hphase.2.1 hphase.2.2
  | opensCall => exact hphase
  | noArguments => exact ⟨hphase.1, hphase.2, .call _ _ (by simp)⟩
  | noItems => exact ⟨.assignList _ _ _ (by simp), rfl⟩
  | opensLoop => exact hphase
  | opensElse => exact hphase
  | stated => exact hphase
  -- the other tokens leave nothing behind but words and names
  | guard => exact ⟨trivial, by simp⟩
  | opensPrint => exact ⟨trivial, by simp⟩
  | opensRange => exact ⟨trivial, by simp⟩
  | _ => exact trivial

/-- Every token that is taken keeps a configuration sound. -/
theorem advance?_sound (hc : c.Sound) (h : c.advance? t = some c') : c'.Sound := by
  obtain ⟨nest, phase, move, rfl, htakes, hrun⟩ := exists_takes h
  exact (htakes.sound hc.2).run hc.1 hrun

/-- Before the first token nothing is held. -/
theorem start_sound : Config.start.Sound := ⟨⟨by simp, by simp⟩, trivial⟩

/-- Whatever the parser has read, it holds nothing but canonical trees. -/
theorem read?_sound {tokens : List Token} (h : Config.start.read? tokens = some c) : c.Sound :=
  start_read?_induction (P := fun _ c => c.Sound) start_sound advance?_sound h

end Parser

/-! ## Canonical trees are placed -/

namespace Tree

/-- No statement stands inside an expression. -/
theorem IsExpression.isPure {e : Tree} (h : IsExpression e) : e.isPure = true := by
  induction h with
  | number | boolean | string | reference => rfl
  | call span callee hall ih =>
    rw [Tree.isPure]
    exact arePure_of_forall ih
  | binary span op hleft hright ihleft ihright => rw [Tree.isPure, ihleft, ihright, Bool.and_self]

/-- No statement stands inside a condition. -/
theorem IsCondition.isPure {e : Tree} (h : IsCondition e) : e.isPure = true := by
  obtain ⟨span, op, hleft, hright⟩ := h
  rw [Tree.isPure, hleft.isPure, hright.isPure, Bool.and_self]

mutual

/-- In a canonical statement every statement stands where statements may stand. -/
theorem IsStatement.isPlaced {s : Tree} : IsStatement s → s.isPlaced = true
  | .expression he => isPlaced_of_isPure he.isPure
  | .assign _ _ hvalue => hvalue.isPure
  | .assignList _ _ _ hitems => arePure_of_forall fun i hi => (hitems i hi).isPure
  | .ifThen _ hcondition hbody => by
    rw [Tree.isPlaced, hcondition.isPure, hbody.isPlaced, Bool.and_self]
  | .ifElse _ hcondition hbody _ hotherwise => by
    rw [Tree.isPlaced, hcondition.isPure, hbody.isPlaced, hotherwise.isPlaced, Bool.and_self,
      Bool.and_self]
  | .forRange _ _ hfirst hstop hbody => by
    rw [Tree.isPlaced, hfirst.isPure, hstop.isPure, hbody.isPlaced, Bool.and_self, Bool.and_self]
  | .whileLoop _ hcondition hbody => by
    rw [Tree.isPlaced, hcondition.isPure, hbody.isPlaced, Bool.and_self]
  | .print _ hargument => hargument.isPure

/-- In a canonical body every statement stands where statements may stand. -/
theorem IsBody.isPlaced {t : Tree} : IsBody t → t.isPlaced = true
  | .single hs => hs.isPlaced
  | .block _ _ hall _ => arePlaced_of_forall fun s hs => (hall s hs).isPlaced

end

end Tree

/-- A parsed program is canonical, and so no run of it evaluates a statement. Displaying a tree is
total, and has no such case to exclude. -/
theorem parse_ok_isCanonical {tokens : List Token} {program : Program}
    (h : parse tokens = .ok program) :
    program.IsCanonical
      ∧ ∀ fuel builtins env,
          program.run fuel builtins env ≠ .error (.fault .misplacedStatement) := by
  have hcanonical : program.IsCanonical := Parser.read?_sound (Parser.parseFrom_eq_ok.mp h)
  refine ⟨hcanonical, fun fuel builtins env => ?_⟩
  exact Program.run_ne_misplacedStatement
    (Tree.arePlaced_of_forall fun s hs => (hcanonical.statements s hs).isPlaced)

/-- `while a<b:a=[b];print(a)`. -/
def loopOverList : List Token :=
  [⟨.wordWhile, [0x77, 0x68, 0x69, 0x6C, 0x65], ⟨⟨1, 1⟩, ⟨1, 6⟩⟩⟩,
    ⟨.name [0x61], [0x61], ⟨⟨1, 7⟩, ⟨1, 8⟩⟩⟩, ⟨.relation .lt, [0x3C], ⟨⟨1, 8⟩, ⟨1, 9⟩⟩⟩,
    ⟨.name [0x62], [0x62], ⟨⟨1, 9⟩, ⟨1, 10⟩⟩⟩, ⟨.colon, [0x3A], ⟨⟨1, 10⟩, ⟨1, 11⟩⟩⟩,
    ⟨.name [0x61], [0x61], ⟨⟨1, 11⟩, ⟨1, 12⟩⟩⟩, ⟨.assign, [0x3D], ⟨⟨1, 12⟩, ⟨1, 13⟩⟩⟩,
    ⟨.openBracket, [0x5B], ⟨⟨1, 13⟩, ⟨1, 14⟩⟩⟩, ⟨.name [0x62], [0x62], ⟨⟨1, 14⟩, ⟨1, 15⟩⟩⟩,
    ⟨.closeBracket, [0x5D], ⟨⟨1, 15⟩, ⟨1, 16⟩⟩⟩, ⟨.semicolon, [0x3B], ⟨⟨1, 16⟩, ⟨1, 17⟩⟩⟩,
    ⟨.wordPrint, [0x70, 0x72, 0x69, 0x6E, 0x74], ⟨⟨1, 17⟩, ⟨1, 22⟩⟩⟩,
    ⟨.openParen, [0x28], ⟨⟨1, 22⟩, ⟨1, 23⟩⟩⟩, ⟨.name [0x61], [0x61], ⟨⟨1, 23⟩, ⟨1, 24⟩⟩⟩,
    ⟨.closeParen, [0x29], ⟨⟨1, 24⟩, ⟨1, 25⟩⟩⟩, ⟨.endOfInput, [], ⟨⟨1, 25⟩, ⟨1, 25⟩⟩⟩]

theorem loopOverList_isCanonical :
    ∃ program, parse loopOverList = .ok program ∧ program.IsCanonical
      ∧ ∀ fuel builtins env,
          program.run fuel builtins env ≠ .error (.fault .misplacedStatement) := by
  obtain ⟨program, h⟩ : ∃ program, parse loopOverList = .ok program := ⟨_, rfl⟩
  exact ⟨program, h, parse_ok_isCanonical h⟩

end Plume
