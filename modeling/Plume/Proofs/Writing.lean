import Plume.Proofs.Canonical
import Plume.Proofs.Layout

/-!
# Writing trees out

`Tree.write` writes a tree as tokens, an operand in parentheses only where it would otherwise be
joined differently. Reading what is written leads back to the tree.

## Shape of the proof

What a construct is read as depends on what stands around it, so each lemma says under which
conditions a configuration takes the whole construct and gets to the one that holds its tree:

* an expression, if no operator that waits for it takes a part of it, and if the token behind it
  does not go on with it (`readsBack_of_isExpression`);
* a statement, if the token behind it does not go on with its last body
  (`readsBack_of_isStatement`);
* a body, as the statements of the sequence that it opens (`readsBack_of_isBody`).

Items behind each other, whether arguments, items of a list or statements, are all read by
`take?_writeAll`.
-/

namespace Plume

/-! ## Writing -/

/-- How tightly an operator binds. -/
def Arithmetic.binding (op : Arithmetic) : Nat := if Parser.isProduct op then 1 else 0

/-- How tightly the outermost parts of an expression are bound together. -/
def Tree.binding : Tree → Nat
  | .binary _ (.arithmetic op) _ _ => op.binding
  | _ => 2

/-- Puts what is written into parentheses if they are needed. -/
def parenthesized (needed : Bool) (written : List TokenKind) : List TokenKind :=
  if needed then .openParen :: written ++ [.closeParen] else written

namespace Tree

mutual

/-- The tokens that a tree is written with. A left operand needs parentheses if it binds less
tightly than the operator, a right operand also if it binds equally. -/
def write : Tree → List TokenKind
  | .number _ value => [.number value]
  | .boolean _ value => [if value then .wordTrue else .wordFalse]
  | .string _ value => [.string value]
  | .reference _ name => [.name name]
  | .binary _ (.arithmetic op) left right =>
    parenthesized (left.binding < op.binding) (write left)
      ++ .arithmetic op :: parenthesized (right.binding ≤ op.binding) (write right)
  | .binary _ (.relation op) left right => write left ++ .relation op :: write right
  | .list _ items => .openBracket :: writeAll .comma items ++ [.closeBracket]
  | .call _ callee arguments =>
    .name callee.name :: .openParen :: writeAll .comma arguments ++ [.closeParen]
  | .block _ statements => writeAll .semicolon statements
  | .assign _ target value => .name target.name :: .assign :: write value
  | .ifThen _ condition body => .wordIf :: write condition ++ .colon :: write body
  | .ifElse _ condition body otherwise =>
    .wordIf :: write condition ++ .colon :: write body
      ++ .wordElse :: .colon :: write otherwise
  | .forRange _ iterator first stop body =>
    .wordFor :: .name iterator.name :: .wordIn :: .wordRange :: .openParen :: write first
      ++ .comma :: write stop ++ .closeParen :: .colon :: write body
  | .whileLoop _ condition body => .wordWhile :: write condition ++ .colon :: write body
  | .print _ argument => .wordPrint :: .openParen :: write argument ++ [.closeParen]

/-- Trees written one behind the other, with a separator between them. -/
def writeAll (separator : TokenKind) : List Tree → List TokenKind
  | [] => []
  | [last] => write last
  | first :: rest => write first ++ separator :: writeAll separator rest

end

/-- Behind every tree but the last stands the separator. -/
theorem writeAll_cons_append_singleton (separator : TokenKind) (first : Tree) (init : List Tree)
    (last : Tree) :
    writeAll separator (first :: (init ++ [last]))
      = first.write ++ separator :: writeAll separator (init ++ [last]) := by
  cases h : init ++ [last] with
  | nil => simp at h
  | cons next rest =>
    rw [writeAll]
    simp

end Tree

/-- The tokens that a program is written with, up to the end of input. -/
def Program.write (p : Program) : List TokenKind := Tree.writeAll .semicolon p.statements

namespace Parser

/-! ## Reading what is written -/

/-- The configuration after bare tokens of the given kinds. -/
def Config.take? (c : Config) (written : List TokenKind) : Option Config :=
  c.read? (written.map .ofKind)

variable {c c' : Config} {nest : Nest} {purpose : Purpose} {waiting : List Waiting} {e : Tree}
  {k : TokenKind} {ks : List TokenKind}

/-- A kind that is taken, and then the others. -/
theorem take?_cons (h : c.advance? (.ofKind k) = some c') : c.take? (k :: ks) = c'.take? ks := by
  rw [Config.take?, List.map_cons, read?_cons, h]
  rfl

/-- Configurations that do the same with the next token do the same with all that follows. -/
theorem take?_congr (h : c.advance? (.ofKind k) = c'.advance? (.ofKind k)) :
    c.take? (k :: ks) = c'.take? (k :: ks) := by
  rw [Config.take?, Config.take?, List.map_cons, read?_cons, read?_cons, h]

/-- Trees behind each other are read one by one. `ready` is the configuration that waits for a tree
behind those given, and `given` the one that has read it. -/
theorem take?_writeAll (separator : TokenKind) (ready : List Tree → Config)
    (given : List Tree → Tree → Config) {init : List Tree} {last : Tree}
    (hseparator : ∀ before e ks,
      (given before e).take? (separator :: ks) = (ready (before ++ [e])).take? ks)
    (hinit : ∀ s ∈ init, ∀ before ks,
      (ready before).take? (s.write ++ separator :: ks)
        = (given before s.bare).take? (separator :: ks))
    (hlast : ∀ before, (ready before).take? (last.write ++ ks) = (given before last.bare).take? ks)
    (before : List Tree) :
    (ready before).take? (Tree.writeAll separator (init ++ [last]) ++ ks)
      = (given (before ++ init.map Tree.bare) last.bare).take? ks := by
  induction init generalizing before with
  | nil => simpa [Tree.writeAll] using hlast before
  -- each tree is read up to its separator, and the rest from behind it
  | cons first init ih =>
    have hrest : ∀ s ∈ init, ∀ before ks, (ready before).take? (s.write ++ separator :: ks)
        = (given before s.bare).take? (separator :: ks) :=
      fun s hs => hinit s (List.mem_cons_of_mem _ hs)
    rw [List.cons_append, Tree.writeAll_cons_append_singleton, List.append_assoc, List.cons_append,
      hinit first List.mem_cons_self, hseparator, ih hrest, List.map_cons, List.append_assoc,
      List.singleton_append]

/-! ## Expressions -/

/-- The operator that waits, if any, does not take a part of an expression bound so tightly. -/
def Admits (binding : Nat) : List Waiting → Prop
  | .operator _ op :: _ => op.binding < binding
  | _ => True

/-- The token does not go on with an expression bound so tightly. -/
def Ends (binding : Nat) : TokenKind → Prop
  | .arithmetic op => op.binding ≤ binding
  | .openParen | .assign => False
  | _ => True

/-- An operator that leaves an expression alone leaves alone what binds more tightly. -/
theorem Admits.mono {m n : Nat} (h : Admits m waiting) (hmn : m ≤ n) : Admits n waiting := by
  unfold Admits at h ⊢
  split at h
  · exact Nat.lt_of_lt_of_le h hmn
  · trivial

/-- A token that does not go on with an expression does not go on with what binds more tightly. -/
theorem Ends.mono {m n : Nat} (h : Ends m k) (hmn : m ≤ n) : Ends n k := by
  cases k <;> simp_all only [Ends]
  exact Nat.le_trans h hmn

/-- A name that is neither called nor assigned to is an operand. -/
theorem take?_named {n : Nat} (name : Ident) (h : Ends n k) :
    (Config.reading nest (.named purpose waiting name)).take? (k :: ks)
      = (Config.reading nest (.operated purpose waiting (.ofIdent name))).take? (k :: ks) := by
  apply take?_congr
  cases k <;> simp_all [Ends, Config.advance?, Phase.advance?, Token.ofKind]

/-- An operator that the waiting one leaves its operand to waits for a right operand. -/
theorem take?_operator {op : Arithmetic} (h : Admits op.binding waiting) :
    (Config.reading nest (.operated purpose waiting e)).take? (.arithmetic op :: ks)
      = (Config.reading nest (.operand purpose (.operator e op :: waiting))).take? ks := by
  apply take?_cons
  have hgive : giveOperand (fun earlier => isProduct earlier || !isProduct op) waiting e
      = (waiting, e) := by
    rcases waiting with _ | ⟨_ | _ | _, waiting⟩
    case cons.operator left earlier =>
      cases earlier <;> cases op <;>
        simp_all [Admits, Arithmetic.binding, isProduct, giveOperand]
    all_goals rfl
  simp [Config.advance?, Phase.advance?, afterOperand?, Token.ofKind, hgive]

/-- A right operand that the next token does not go on with is joined to the left one. -/
theorem take?_join {left : Tree} {op : Arithmetic} (h : Ends op.binding k) :
    (Config.reading nest (.operated purpose (.operator left op :: waiting) e)).take? (k :: ks)
      = (Config.reading nest
          (.operated purpose waiting (.join (.arithmetic op) left e))).take? (k :: ks) := by
  apply take?_congr
  cases k with
  | arithmetic next =>
    have htakes : (isProduct op || !isProduct next) = true := by
      cases op <;> cases next <;> simp_all [Ends, Arithmetic.binding, isProduct]
    simp [Config.advance?, Phase.advance?, afterOperand?, Token.ofKind, giveOperand, htakes]
  | _ => simp [Config.advance?, Phase.advance?, afterOperand?, Token.ofKind, giveOperand]

/-- The tokens that an operand starts with. -/
def StartsOperand : TokenKind → Prop
  | .number _ | .string _ | .name _ | .wordTrue | .wordFalse | .openParen => True
  | _ => False

/-- A written expression begins with a token that can start an operand. -/
theorem exists_write_eq_cons (h : e.IsExpression) :
    ∃ k ks, e.write = k :: ks ∧ StartsOperand k := by
  induction h with
  | number | string | reference | call => exact ⟨_, _, Tree.write.eq_def _, trivial⟩
  | boolean span value => cases value <;> exact ⟨_, _, Tree.write.eq_def _, trivial⟩
  | @binary span op left right hleft hright ihleft ihright =>
    obtain ⟨k, ks, hwrite, hk⟩ := ihleft
    rw [Tree.write, parenthesized]
    split
    · exact ⟨_, _, rfl, trivial⟩
    · exact ⟨k, _, by rw [hwrite]; rfl, hk⟩

/-- So do written items. -/
theorem exists_writeAll_eq_cons {init : List Tree} {last : Tree}
    (h : ∀ a ∈ init ++ [last], a.IsExpression) (separator : TokenKind) :
    ∃ k ks, Tree.writeAll separator (init ++ [last]) = k :: ks ∧ StartsOperand k := by
  cases init with
  | nil =>
    rw [List.nil_append, Tree.writeAll]
    exact exists_write_eq_cons (h last (by simp))
  | cons first init =>
    obtain ⟨k, ks, hwrite, hk⟩ := exists_write_eq_cons (h first (by simp))
    exact ⟨k, _, by rw [List.cons_append, Tree.writeAll_cons_append_singleton, hwrite]; rfl, hk⟩

/-- The operand that a phase may go on with, where that is not all it may go on with. -/
def Phase.opens : Phase → Option (Purpose × List Waiting)
  | .statement => some (.statement, [])
  | .callOpened purpose waiting callee => some (purpose, .argument callee [] :: waiting)
  | .assigned target => some (.assigned target, [])
  | .listOpened target opened => some (.item target opened [], [])
  | _ => none

/-- At a token that starts an operand, such a phase does what the phase for that operand does. -/
theorem take?_opens {phase : Phase} (h : phase.opens = some (purpose, waiting))
    (hk : StartsOperand k) :
    (Config.reading nest phase).take? (k :: ks)
      = (Config.reading nest (.operand purpose waiting)).take? (k :: ks) := by
  apply take?_congr
  cases phase <;> simp only [Phase.opens, reduceCtorEq, Option.some.injEq, Prod.mk.injEq] at h <;>
    obtain ⟨rfl, rfl⟩ := h <;> cases k <;> cases hk <;> rfl

/-- What is written for an expression is read as that expression, where no operator takes a part of
it and the next token does not go on with it. -/
def ReadsBack (e : Tree) : Prop :=
  ∀ nest purpose waiting k ks, Admits e.binding waiting → Ends e.binding k →
    (Config.reading nest (.operand purpose waiting)).take? (e.write ++ k :: ks)
      = (Config.reading nest (.operated purpose waiting e.bare)).take? (k :: ks)

/-- In parentheses an expression is read back anywhere. -/
theorem ReadsBack.parenthesized {needed : Bool} (h : ReadsBack e)
    (hadmits : needed = false → Admits e.binding waiting)
    (hends : needed = false → Ends e.binding k) :
    (Config.reading nest (.operand purpose waiting)).take? (parenthesized needed e.write ++ k :: ks)
      = (Config.reading nest (.operated purpose waiting e.bare)).take? (k :: ks) := by
  cases needed with
  | false => exact h nest purpose waiting k ks (hadmits rfl) (hends rfl)
  | true =>
    -- inside of parentheses no operator is near, so the expression is read whatever it is
    have hopen : (Config.reading nest (.operand purpose waiting)).take?
          (.openParen :: (e.write ++ .closeParen :: k :: ks))
        = (Config.reading nest (.operand purpose (.group :: waiting))).take?
          (e.write ++ .closeParen :: k :: ks) := take?_cons rfl
    have hclose : (Config.reading nest (.operated purpose (.group :: waiting) e.bare)).take?
          (.closeParen :: k :: ks)
        = (Config.reading nest (.operated purpose waiting e.bare)).take? (k :: ks) := take?_cons rfl
    simp only [Plume.parenthesized, if_true, List.cons_append, List.append_assoc,
      List.nil_append]
    rw [hopen, h nest purpose (.group :: waiting) .closeParen _ trivial trivial, hclose]

/-- Expressions behind each other, up to the token that closes them. `place` says where an
expression stands behind those given, and `done` is the phase once they are closed. -/
theorem take?_items {opened : Phase} {close : TokenKind} {items : List Tree}
    (place : List Tree → Purpose × List Waiting) (done : List Tree → Phase)
    (hopens : opened.opens = some (place []))
    (hempty : (Config.reading nest opened).advance? (.ofKind close)
      = some (.reading nest (done [])))
    (hcomma : ∀ before e,
      (Config.reading nest (.operated (place before).1 (place before).2 e)).advance?
          (.ofKind .comma)
        = some (.reading nest (.operand (place (before ++ [e])).1 (place (before ++ [e])).2)))
    (hclose : ∀ before e,
      (Config.reading nest (.operated (place before).1 (place before).2 e)).advance? (.ofKind close)
        = some (.reading nest (done (before ++ [e]))))
    (hadmits : ∀ n before, Admits n (place before).2) (hends : ∀ n, Ends n close)
    (hexpression : ∀ a ∈ items, a.IsExpression) (h : ∀ a ∈ items, ReadsBack a) :
    (Config.reading nest opened).take? (Tree.writeAll .comma items ++ close :: ks)
      = (Config.reading nest (done (items.map Tree.bare))).take? ks := by
  rcases List.eq_nil_or_concat items with rfl | ⟨init, last, rfl⟩
  · exact take?_cons hempty
  · rw [List.concat_eq_append] at hexpression h ⊢
    -- the first item tells the list from one without items
    obtain ⟨k, rest, hwrite, hk⟩ := exists_writeAll_eq_cons hexpression .comma
    have hread := take?_writeAll .comma
      (fun before => .reading nest (.operand (place before).1 (place before).2))
      (fun before e => .reading nest (.operated (place before).1 (place before).2 e))
      (fun before e _ => take?_cons (hcomma before e))
      (fun a ha before _ => h a (List.mem_append_left _ ha) _ _ _ _ _ (hadmits _ before) trivial)
      (fun before => h last (by simp) _ _ _ _ ks (hadmits _ before) (hends _)) []
    calc
      _ = (Config.reading nest (.operand (place []).1 (place []).2)).take?
            (Tree.writeAll .comma (init ++ [last]) ++ close :: ks) := by
        rw [hwrite, List.cons_append]
        exact take?_opens hopens hk
      _ = (Config.reading nest (done (init.map Tree.bare ++ [last.bare]))).take? ks := by
        rw [hread, take?_cons (hclose _ _), List.nil_append]
      _ = _ := by rw [List.map_append, List.map_cons, List.map_nil]

/-- Expressions are read back. -/
theorem readsBack_of_isExpression (h : e.IsExpression) : ReadsBack e := by
  induction h with
  | number | string =>
    intro nest purpose waiting k ks _ _
    rw [Tree.write]
    exact take?_cons rfl
  | boolean span value =>
    intro nest purpose waiting k ks _ _
    rw [Tree.write]
    cases value <;> exact take?_cons rfl
  | reference span name =>
    intro nest purpose waiting k ks _ hends
    rw [Tree.write]
    calc
      _ = (Config.reading nest (.named purpose waiting ⟨.blank, name⟩)).take? (k :: ks) :=
        take?_cons rfl
      _ = _ := take?_named _ hends
  | @call span callee arguments harguments ih =>
    intro nest purpose waiting k ks _ _
    rw [Tree.write, Tree.bare, Tree.bareAll_eq_map]
    calc
      _ = (Config.reading nest (.named purpose waiting callee.bare)).take?
            (.openParen :: (Tree.writeAll .comma arguments ++ .closeParen :: k :: ks)) := by
        simp only [List.cons_append, List.append_assoc, List.nil_append]
        exact take?_cons rfl
      _ = (Config.reading nest (.callOpened purpose waiting callee.bare)).take?
            (Tree.writeAll .comma arguments ++ .closeParen :: k :: ks) := take?_cons rfl
      _ = _ := take?_items
        (fun before => (purpose, .argument callee.bare before :: waiting))
        (fun items => .operated purpose waiting (.call .blank callee.bare items))
        rfl rfl (fun _ _ => rfl) (fun _ _ => rfl) (fun _ _ => trivial) (fun _ => trivial)
        harguments ih
  | @binary span op left right _ _ ihleft ihright =>
    intro nest purpose waiting k ks hadmits hends
    have hbare : (Tree.binary span (.arithmetic op) left right).bare
        = .join (.arithmetic op) left.bare right.bare := by
      simp [Tree.bare, Tree.join, Span.to, Span.blank]
    rw [Tree.write, List.append_assoc, List.cons_append, hbare]
    calc
      _ = (Config.reading nest (.operated purpose waiting left.bare)).take?
            (.arithmetic op :: (parenthesized (right.binding ≤ op.binding) right.write
              ++ k :: ks)) := by
        -- a left operand in no need of parentheses binds at least as tightly as the operator
        have hle : decide (left.binding < op.binding) = false → op.binding ≤ left.binding := by
          simp
        exact ihleft.parenthesized (fun h => hadmits.mono (hle h)) hle
      _ = (Config.reading nest (.operand purpose (.operator left.bare op :: waiting))).take?
            (parenthesized (right.binding ≤ op.binding) right.write ++ k :: ks) :=
        take?_operator hadmits
      _ = (Config.reading nest
            (.operated purpose (.operator left.bare op :: waiting) right.bare)).take?
            (k :: ks) := by
        have hlt : decide (right.binding ≤ op.binding) = false → op.binding < right.binding := by
          simp
        exact ihright.parenthesized hlt (fun h => hends.mono (Nat.le_of_lt (hlt h)))
      _ = _ := take?_join hends

/-! ## Statements -/

/-- The token ends a statement. A body takes any `;`, and an `if` without `else` any `else`. -/
inductive Closes (s : Tree) : TokenKind → Prop
  | semicolon : s.isCompound = false → Closes s .semicolon
  | wordElse : s.endsOpen = false → Closes s .wordElse
  | endOfInput : Closes s .endOfInput

/-- What closes a statement ends every expression in it. -/
theorem Closes.ends {s : Tree} (h : Closes s k) (n : Nat) : Ends n k := by
  cases h <;> trivial

/-- A token that ends a statement with a body ends that body. -/
theorem Closes.body {s : Tree} (h : Closes s k) (body : Tree) (hcompound : s.isCompound = true)
    (hopen : s.endsOpen = body.endsOpen) :
    k = .endOfInput ∨ k = .wordElse ∧ body.endsOpen = false := by
  cases h with
  | semicolon hs =>
    rw [hcompound] at hs
    cases hs
  | wordElse hs => exact .inr ⟨rfl, hopen ▸ hs⟩
  | endOfInput => exact .inl rfl

/-- An expression is read for its purpose, up to a token that ends it. -/
theorem take?_write_expression (h : e.IsExpression) (purpose : Purpose) (hends : ∀ n, Ends n k) :
    (Config.reading nest (.operand purpose [])).take? (e.write ++ k :: ks)
      = (Config.reading nest (.operated purpose [] e.bare)).take? (k :: ks) :=
  readsBack_of_isExpression h nest purpose [] k ks trivial (hends _)

/-- The same where other things than an operand may stand. -/
theorem take?_write_opened {phase : Phase} (h : e.IsExpression)
    (hopens : phase.opens = some (purpose, [])) (hends : ∀ n, Ends n k) :
    (Config.reading nest phase).take? (e.write ++ k :: ks)
      = (Config.reading nest (.operated purpose [] e.bare)).take? (k :: ks) := by
  obtain ⟨k', rest, hwrite, hk⟩ := exists_write_eq_cons h
  rw [← take?_write_expression h purpose hends, hwrite, List.cons_append]
  exact take?_opens hopens hk

/-- A condition, from the word before it up to the body behind it. -/
theorem take?_write_condition {condition : Tree} (h : condition.IsCondition) (guard : Guard) :
    (Config.reading nest (.operand (.compared guard Span.blank.start) [])).take?
        (condition.write ++ .colon :: ks)
      = (openBody nest (guard.head Span.blank.start condition.bare)).take? ks := by
  cases h with
  | @compare span op left right hleft hright =>
    have hbare : (Tree.binary span (.relation op) left right).bare
        = .join (.relation op) left.bare right.bare := by
      simp [Tree.bare, Tree.join, Span.to, Span.blank]
    rw [Tree.write, List.append_assoc, List.cons_append, hbare]
    -- the left side up to the relation, the relation, the right side up to the colon
    calc
      _ = (Config.reading nest (.operated (.compared guard Span.blank.start) [] left.bare)).take?
            (.relation op :: (right.write ++ .colon :: ks)) :=
        take?_write_expression hleft _ fun _ => trivial
      _ = (Config.reading nest
            (.operand (.comparand guard Span.blank.start op left.bare) [])).take?
            (right.write ++ .colon :: ks) := take?_cons rfl
      _ = (Config.reading nest
            (.operated (.comparand guard Span.blank.start op left.bare) [] right.bare)).take?
            (.colon :: ks) := take?_write_expression hright _ fun _ => trivial
      _ = _ := take?_cons rfl

/-- What is written for a statement is read as that statement, up to a token that ends it. -/
def ReadsBackStatement (s : Tree) : Prop :=
  ∀ nest k ks, Closes s k →
    (Config.reading nest .statement).take? (s.write ++ k :: ks)
      = (Config.reading nest (.stated s.bare)).take? (k :: ks)

/-- What is written for a body is read as the statements of a sequence that makes up the body. -/
def ReadsBackBody (body : Tree) : Prop :=
  ∃ before last, body.bare = bodyOf before last ∧
    ∀ outer k ks, k = .endOfInput ∨ k = .wordElse ∧ body.endsOpen = false →
      (Config.reading ⟨[], outer⟩ .statement).take? (body.write ++ k :: ks)
        = (Config.reading ⟨before, outer⟩ (.stated last)).take? (k :: ks)

/-- A head and its body are read as the statement that they make up, unless the head is an `if` that
an `else` follows. -/
theorem ReadsBackBody.complete {body : Tree} (h : ReadsBackBody body) (head : Head)
    (hk : k = .endOfInput
      ∨ k = .wordElse ∧ body.endsOpen = false ∧ ∀ start condition, head ≠ .ifThen start condition) :
    (openBody nest head).take? (body.write ++ k :: ks)
      = (Config.reading nest (.stated (head.complete body.bare))).take? (k :: ks) := by
  obtain ⟨before, last, hbody, hread⟩ := h
  rw [openBody, hbody, hread _ k ks (hk.imp_right fun h => ⟨h.1, h.2.1⟩)]
  apply take?_congr
  rcases hk with rfl | ⟨rfl, -, hhead⟩
  · rfl
  · cases head with
    | ifThen start condition => exact absurd rfl (hhead start condition)
    | _ => rfl

/-- The body of an `if` up to the `else` that belongs to it. -/
theorem ReadsBackBody.wordElse {body : Tree} (h : ReadsBackBody body) (start : Position)
    (condition : Tree) (hopen : body.endsOpen = false) :
    (openBody nest (.ifThen start condition)).take? (body.write ++ .wordElse :: ks)
      = (Config.reading nest (.elseWord start condition body.bare)).take? ks := by
  obtain ⟨before, last, hbody, hread⟩ := h
  rw [openBody, hbody, hread _ _ ks (.inr ⟨rfl, hopen⟩)]
  exact take?_cons rfl

/-- A sequence whose last statement alone may have a body is read one statement after another. -/
theorem take?_write_sequence {init : List Tree} {last : Tree} {outer : List OpenBody}
    (h : ∀ s ∈ init ++ [last], ReadsBackStatement s) (hsimple : ∀ s ∈ init, s.isCompound = false)
    (hk : Closes last k) :
    (Config.reading ⟨[], outer⟩ .statement).take?
        (Tree.writeAll .semicolon (init ++ [last]) ++ k :: ks)
      = (Config.reading ⟨init.map Tree.bare, outer⟩ (.stated last.bare)).take? (k :: ks) :=
  take?_writeAll .semicolon (fun before => .reading ⟨before, outer⟩ .statement)
    (fun before s => .reading ⟨before, outer⟩ (.stated s))
    (fun _ _ _ => take?_cons rfl)
    (fun s hs _ _ => h s (List.mem_append_left _ hs) _ _ _ (.semicolon (hsimple s hs)))
    (fun _ => h last (by simp) _ _ _ hk) []

section Statements

variable {span listSpan : Span} {target iterator : Ident} {value condition first stop body : Tree}

/-- An expression reads back as a statement. -/
theorem ReadsBackStatement.expression (h : e.IsExpression) : ReadsBackStatement e := by
  intro nest k ks hk
  rw [take?_write_opened h rfl hk.ends]
  apply take?_congr
  cases hk <;> rfl

/-- An assignment reads back if its value does. -/
theorem ReadsBackStatement.assign (h : value.IsExpression) :
    ReadsBackStatement (.assign span target value) := by
  intro nest k ks hk
  rw [Tree.write, Tree.bare]
  calc
    _ = (Config.reading nest (.named .statement [] target.bare)).take?
          (.assign :: (value.write ++ k :: ks)) := take?_cons rfl
    _ = (Config.reading nest (.assigned target.bare)).take? (value.write ++ k :: ks) :=
      take?_cons rfl
    _ = (Config.reading nest (.operated (.assigned target.bare) [] value.bare)).take? (k :: ks) :=
      take?_write_opened h rfl hk.ends
    _ = _ := by
      have hspan : target.bare.span.to .blank = .blank := rfl
      apply take?_congr
      cases hk <;>
        simp [Config.advance?, Phase.advance?, afterOperand?, afterExpression?, giveOperand,
          Token.ofKind, hspan]

/-- The assignment of a list reads back if the items do. -/
theorem ReadsBackStatement.assignList {items : List Tree} (h : ∀ i ∈ items, i.IsExpression) :
    ReadsBackStatement (.assign span target (.list listSpan items)) := by
  intro nest k ks _
  rw [Tree.write, Tree.write, Tree.bare, Tree.bare, Tree.bareAll_eq_map]
  calc
    _ = (Config.reading nest (.named .statement [] target.bare)).take?
          (.assign :: .openBracket ::
            (Tree.writeAll .comma items ++ .closeBracket :: k :: ks)) := by
      simp only [List.cons_append, List.append_assoc, List.nil_append]
      exact take?_cons rfl
    _ = (Config.reading nest (.assigned target.bare)).take?
          (.openBracket :: (Tree.writeAll .comma items ++ .closeBracket :: k :: ks)) :=
      take?_cons rfl
    _ = (Config.reading nest (.listOpened target.bare Span.blank.start)).take?
          (Tree.writeAll .comma items ++ .closeBracket :: k :: ks) := take?_cons rfl
    _ = _ := take?_items (fun before => (.item target.bare Span.blank.start before, []))
      (fun items => .stated (.assign .blank target.bare (.list .blank items)))
      rfl rfl (fun _ _ => rfl) (fun _ _ => rfl) (fun _ _ => trivial) (fun _ => trivial)
      h (fun i hi => readsBack_of_isExpression (h i hi))

/-- A `print` reads back if its argument does. -/
theorem ReadsBackStatement.print (h : value.IsExpression) :
    ReadsBackStatement (.print span value) := by
  intro nest k ks _
  rw [Tree.write, Tree.bare]
  calc
    _ = (Config.reading nest (.printWord Span.blank.start)).take?
          (.openParen :: (value.write ++ .closeParen :: k :: ks)) := by
      simp only [List.cons_append, List.append_assoc, List.nil_append]
      exact take?_cons rfl
    _ = (Config.reading nest (.operand (.printed Span.blank.start) [])).take?
          (value.write ++ .closeParen :: k :: ks) := take?_cons rfl
    _ = (Config.reading nest (.operated (.printed Span.blank.start) [] value.bare)).take?
          (.closeParen :: k :: ks) := take?_write_expression h _ fun _ => trivial
    _ = _ := take?_cons rfl

/-- An `if` without an `else` reads back if its body does. -/
theorem ReadsBackStatement.ifThen (hcondition : condition.IsCondition) (h : ReadsBackBody body) :
    ReadsBackStatement (.ifThen span condition body) := by
  intro nest k ks hk
  -- a `;` would go to the body, and an `else` to this `if`
  have hend : k = .endOfInput := by
    cases hk with
    | endOfInput => rfl
    | semicolon h => cases h
    | wordElse h =>
      rw [Tree.endsOpen] at h
      cases h
  rw [Tree.write, Tree.bare]
  calc
    _ = (Config.reading nest (.operand (.compared .ifWord Span.blank.start) [])).take?
          (condition.write ++ .colon :: (body.write ++ k :: ks)) := by
      simp only [List.cons_append, List.append_assoc]
      exact take?_cons rfl
    _ = (openBody nest (.ifThen Span.blank.start condition.bare)).take? (body.write ++ k :: ks) :=
      take?_write_condition hcondition .ifWord
    _ = (Config.reading nest
          (.stated (Head.complete body.bare (.ifThen Span.blank.start condition.bare)))).take?
          (k :: ks) := h.complete _ (.inl hend)
    _ = _ := by rw [Head.complete, Tree.span_bare]

/-- An `if` with an `else` reads back if its bodies do, and if the first of them cannot take the
`else`. -/
theorem ReadsBackStatement.ifElse {otherwise : Tree} (hcondition : condition.IsCondition)
    (hbody : ReadsBackBody body) (hopen : body.endsOpen = false)
    (hotherwise : ReadsBackBody otherwise) :
    ReadsBackStatement (.ifElse span condition body otherwise) := by
  intro nest k ks hk
  -- what follows closes the second body, for that is where the statement ends
  have hend := hk.body otherwise rfl (by rw [Tree.endsOpen])
  rw [Tree.write, Tree.bare]
  calc
    _ = (Config.reading nest (.operand (.compared .ifWord Span.blank.start) [])).take?
          (condition.write ++ .colon :: (body.write
            ++ .wordElse :: .colon :: (otherwise.write ++ k :: ks))) := by
      simp only [List.cons_append, List.append_assoc]
      exact take?_cons rfl
    _ = (openBody nest (.ifThen Span.blank.start condition.bare)).take?
          (body.write ++ .wordElse :: .colon :: (otherwise.write ++ k :: ks)) :=
      take?_write_condition hcondition .ifWord
    _ = (Config.reading nest (.elseWord Span.blank.start condition.bare body.bare)).take?
          (.colon :: (otherwise.write ++ k :: ks)) := hbody.wordElse _ _ hopen
    _ = (openBody nest (.ifElse Span.blank.start condition.bare body.bare)).take?
          (otherwise.write ++ k :: ks) := take?_cons rfl
    _ = (Config.reading nest (.stated (Head.complete otherwise.bare
          (.ifElse Span.blank.start condition.bare body.bare)))).take? (k :: ks) :=
      hotherwise.complete _ (hend.imp_right fun h => ⟨h.1, h.2, by rintro _ _ ⟨⟩⟩)
    _ = _ := by rw [Head.complete, Tree.span_bare]

/-- A `for` reads back if its body does. -/
theorem ReadsBackStatement.forRange (hfirst : first.IsExpression) (hstop : stop.IsExpression)
    (h : ReadsBackBody body) : ReadsBackStatement (.forRange span iterator first stop body) := by
  intro nest k ks hk
  -- what follows closes the body, for that is where the statement ends
  have hend := hk.body body rfl (by rw [Tree.endsOpen])
  rw [Tree.write, Tree.bare]
  calc
    _ = (Config.reading nest (.operand (.rangeFirst Span.blank.start iterator.bare) [])).take?
          (first.write ++ .comma :: (stop.write ++ .closeParen :: .colon ::
            (body.write ++ k :: ks))) := by
      simp only [List.cons_append, List.append_assoc]
      rfl
    _ = (Config.reading nest
          (.operated (.rangeFirst Span.blank.start iterator.bare) [] first.bare)).take?
          (.comma :: (stop.write ++ .closeParen :: .colon :: (body.write ++ k :: ks))) :=
      take?_write_expression hfirst _ fun _ => trivial
    _ = (Config.reading nest
          (.operand (.rangeStop Span.blank.start iterator.bare first.bare) [])).take?
          (stop.write ++ .closeParen :: .colon :: (body.write ++ k :: ks)) := take?_cons rfl
    _ = (Config.reading nest
          (.operated (.rangeStop Span.blank.start iterator.bare first.bare) [] stop.bare)).take?
          (.closeParen :: .colon :: (body.write ++ k :: ks)) :=
      take?_write_expression hstop _ fun _ => trivial
    _ = (openBody nest (.forRange Span.blank.start iterator.bare first.bare stop.bare)).take?
          (body.write ++ k :: ks) := rfl
    _ = (Config.reading nest (.stated (Head.complete body.bare
          (.forRange Span.blank.start iterator.bare first.bare stop.bare)))).take? (k :: ks) :=
      h.complete _ (hend.imp_right fun h => ⟨h.1, h.2, by rintro _ _ ⟨⟩⟩)
    _ = _ := by rw [Head.complete, Tree.span_bare]

/-- A `while` reads back if its body does. -/
theorem ReadsBackStatement.whileLoop (hcondition : condition.IsCondition) (h : ReadsBackBody body) :
    ReadsBackStatement (.whileLoop span condition body) := by
  intro nest k ks hk
  have hend := hk.body body rfl (by rw [Tree.endsOpen])
  rw [Tree.write, Tree.bare]
  calc
    _ = (Config.reading nest (.operand (.compared .whileWord Span.blank.start) [])).take?
          (condition.write ++ .colon :: (body.write ++ k :: ks)) := by
      simp only [List.cons_append, List.append_assoc]
      exact take?_cons rfl
    _ = (openBody nest (.whileLoop Span.blank.start condition.bare)).take?
          (body.write ++ k :: ks) := take?_write_condition hcondition .whileWord
    _ = (Config.reading nest
          (.stated (Head.complete body.bare (.whileLoop Span.blank.start condition.bare)))).take?
          (k :: ks) := h.complete _ (hend.imp_right fun h => ⟨h.1, h.2, by rintro _ _ ⟨⟩⟩)
    _ = _ := by rw [Head.complete, Tree.span_bare]

/-- A single statement reads back as a body. -/
theorem ReadsBackBody.single {s : Tree} (h : ReadsBackStatement s) : ReadsBackBody s := by
  refine ⟨[], s.bare, rfl, fun outer k ks hk => h _ _ _ ?_⟩
  rcases hk with rfl | ⟨rfl, hopen⟩
  · exact .endOfInput
  · exact .wordElse hopen

/-- A block reads back if its statements do, and if none but the last has a body. -/
theorem ReadsBackBody.block {statements : List Tree} (hlength : 2 ≤ statements.length)
    (h : ∀ s ∈ statements, ReadsBackStatement s)
    (hsimple : ∀ s ∈ statements.dropLast, s.isCompound = false) :
    ReadsBackBody (.block span statements) := by
  rcases List.eq_nil_or_concat statements with rfl | ⟨init, last, rfl⟩
  · simp at hlength
  · rw [List.concat_eq_append] at hlength h hsimple ⊢
    rw [List.dropLast_concat] at hsimple
    refine ⟨init.map Tree.bare, last.bare, ?_, fun outer k ks hk => ?_⟩
    · cases init with
      | nil => simp at hlength
      | cons first init => simp [Tree.bare, bodyOf, Span.to, Span.blank]
    · rw [Tree.endsOpen, Tree.lastEndsOpen_append_singleton] at hk
      rw [Tree.write]
      -- what follows closes the last statement, the only one that can have a body
      refine take?_write_sequence h hsimple ?_
      rcases hk with rfl | ⟨rfl, hopen⟩
      · exact .endOfInput
      · exact .wordElse hopen

end Statements

mutual

/-- Statements are read back. -/
theorem readsBack_of_isStatement : {s : Tree} → s.IsStatement → ReadsBackStatement s
  | _, .expression he => .expression he
  | _, .assign _ _ hvalue => .assign hvalue
  | _, .assignList _ _ _ hitems => .assignList hitems
  | _, .ifThen _ hcondition hbody => .ifThen hcondition (readsBack_of_isBody hbody)
  | _, .ifElse _ hcondition hbody hopen hotherwise =>
    .ifElse hcondition (readsBack_of_isBody hbody) hopen (readsBack_of_isBody hotherwise)
  | _, .forRange _ _ hfirst hstop hbody => .forRange hfirst hstop (readsBack_of_isBody hbody)
  | _, .whileLoop _ hcondition hbody => .whileLoop hcondition (readsBack_of_isBody hbody)
  | _, .print _ hargument => .print hargument

/-- Bodies are read back. -/
theorem readsBack_of_isBody : {body : Tree} → body.IsBody → ReadsBackBody body
  | _, .single hs => .single (readsBack_of_isStatement hs)
  | _, .block _ hlength hstatements hsimple =>
    .block hlength (fun s hs => readsBack_of_isStatement (hstatements s hs)) hsimple

end

/-! ## Programs -/

/-- Bare tokens that a canonical program is written with are read as that program. -/
theorem start_take?_write {program : Program} (h : program.IsCanonical) :
    Config.start.take? (program.write ++ [.endOfInput]) = some (.finished program.bare) := by
  obtain ⟨span, statements⟩ := program
  obtain ⟨hnonempty, hstatements, hsimple⟩ := h
  rcases List.eq_nil_or_concat statements with rfl | ⟨init, last, rfl⟩
  · exact absurd rfl hnonempty
  · simp only [List.concat_eq_append, List.dropLast_concat] at hstatements hsimple ⊢
    rw [Program.write, Config.start,
      take?_write_sequence (fun s hs => readsBack_of_isStatement (hstatements s hs)) hsimple
        .endOfInput]
    have hprogram : programOf (init.map Tree.bare) last.bare
        = Program.bare ⟨span, init ++ [last]⟩ := programOf_bare init last
    rw [← hprogram]
    rfl

end Parser

/-- Writing a canonical program out and reading the tokens gives the program back, up to places. -/
theorem parse_write {program : Program} {tokens : List Token} (h : program.IsCanonical)
    (htokens : kinds tokens = program.write ++ [.endOfInput]) :
    ∃ q, parse tokens = .ok q ∧ q.bare = program.bare := by
  rw [← parse_ofKind_eq_ok, htokens]
  exact Parser.parseFrom_eq_ok.mpr (Parser.start_take?_write h)

/-- `a-(b-a)*b` before a loop over a conditional with an `else`. -/
def nestedOperands : Program :=
  let a := Tree.reference .blank [0x61]
  let b := Tree.reference .blank [0x62]
  let difference := Tree.join (.arithmetic .sub) b a
  let condition := Tree.join (.relation .lt) a b
  ⟨.blank, [.join (.arithmetic .sub) a (.join (.arithmetic .mul) difference b),
    .whileLoop .blank condition (.ifElse .blank condition (.print .blank a) b)]⟩

theorem parse_write_nestedOperands :
    nestedOperands.IsCanonical ∧ ∃ q, parse (List.map .ofKind
      [.name [0x61], .arithmetic .sub, .openParen, .name [0x62], .arithmetic .sub, .name [0x61],
        .closeParen, .arithmetic .mul, .name [0x62], .semicolon, .wordWhile, .name [0x61],
        .relation .lt, .name [0x62], .colon, .wordIf, .name [0x61], .relation .lt, .name [0x62],
        .colon, .wordPrint, .openParen, .name [0x61], .closeParen, .wordElse, .colon,
        .name [0x62], .endOfInput]) = .ok q ∧ q.bare = nestedOperands.bare := by
  have ha : (Tree.reference .blank [0x61]).IsExpression := .reference _ _
  have hb : (Tree.reference .blank [0x62]).IsExpression := .reference _ _
  have hfirst : (nestedOperands.statements.head (by simp [nestedOperands])).IsStatement :=
    .expression (.binary _ _ ha (.binary _ _ (.binary _ _ hb ha) hb))
  have hlast : (nestedOperands.statements.getLast (by simp [nestedOperands])).IsStatement :=
    .whileLoop _ (.compare _ _ ha hb) (.single (.ifElse _ (.compare _ _ ha hb)
      (.single (.print _ ha)) rfl (.single (.expression hb))))
  have h : nestedOperands.IsCanonical :=
    ⟨by simp [nestedOperands], by simpa [nestedOperands] using ⟨hfirst, hlast⟩,
      by simp [nestedOperands, Tree.join, Tree.isCompound]⟩
  exact ⟨h, parse_write h rfl⟩

end Plume
