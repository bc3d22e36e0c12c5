import Mathlib
import Plume.Token.Basic

/-!
# The grammar of scripts

The grammar says which sequences of token kinds are scripts; it builds no trees. It is ambiguous: a
statement behind a `;` may belong to the innermost body or to any sequence around it, and an `else`
to any `if` that is still without one.

## Shape of the definitions

`productions` lists what the phrases of each category consist of, given phrases of the others.
`phrases` is the least family of languages that is closed under them: a sequence of kinds is a
phrase of a category exactly if a finite number of productions derives it from that category.

## Shape of the lemmas

A reader of tokens never sees a phrase alone but a phrase with something behind it, so the equations
are about products `phrases c * L`. `cons_mem_expression_mul` and `cons_mem_statement_mul` say what
may follow the first token of such a product. Neither of them needs an induction: no phrase is empty
and no production starts with its own category, so one unfolding brings the first token to light.
-/

namespace Plume.Grammar

open Computability

/-! ## Single tokens -/

/-- The tokens that have the property `p`, each a phrase of its own. -/
def token (p : TokenKind → Prop) : Language TokenKind := {ks | ∃ k, p k ∧ ks = [k]}

/-- The token `k`. -/
abbrev exactly (k : TokenKind) : Language TokenKind := token (· = k)

/-- Numbers, strings and truth values. -/
def IsLiteral : TokenKind → Prop
  | .number _ | .string _ | .wordTrue | .wordFalse => True
  | _ => False

/-- Names. -/
def IsName : TokenKind → Prop
  | .name _ => True
  | _ => False

/-- The operators `+`, `-`, `*` and `/`. -/
def IsArithmetic : TokenKind → Prop
  | .arithmetic _ => True
  | _ => False

/-- The relations that compare two expressions. -/
def IsRelation : TokenKind → Prop
  | .relation _ => True
  | _ => False

/-! ## Productions -/

/-- The categories of phrases. -/
inductive Category where
  | program
  | sequence
  | statement
  | condition
  | expression
  | factor
  | arguments

/-- The phrases that the productions build from the phrases `G`. -/
def productions (G : Category → Language TokenKind) : Category → Language TokenKind
  | .program => G .sequence * exactly .endOfInput
  | .sequence => G .statement * (exactly .semicolon * G .statement)∗
  | .statement =>
    token IsName * exactly .assign
        * (G .expression + exactly .openBracket * (1 + G .arguments) * exactly .closeBracket)
      + G .expression
      + exactly .wordIf * G .condition * exactly .colon * G .sequence
        * (1 + exactly .wordElse * exactly .colon * G .sequence)
      + exactly .wordFor * token IsName * exactly .wordIn * exactly .wordRange
        * exactly .openParen * G .expression * exactly .comma * G .expression
        * exactly .closeParen * exactly .colon * G .sequence
      + exactly .wordWhile * G .condition * exactly .colon * G .sequence
      + exactly .wordPrint * exactly .openParen * G .expression * exactly .closeParen
  | .condition => G .expression * token IsRelation * G .expression
  | .expression => G .factor * (token IsArithmetic * G .factor)∗
  | .factor =>
    token IsLiteral
      + token IsName
      + exactly .openParen * G .expression * exactly .closeParen
      + token IsName * exactly .openParen * (1 + G .arguments) * exactly .closeParen
  | .arguments => G .expression * (exactly .comma * G .expression)∗

/-- More phrases make more phrases, so that there are least ones. -/
theorem productions_mono : Monotone productions := by
  intro G H h c
  cases c <;> simp only [productions] <;> gcongr <;> apply h

/-- The phrases of a category: the least languages that are closed under the productions. -/
def phrases : Category → Language TokenKind := OrderHom.lfp ⟨productions, productions_mono⟩

/-- Every phrase comes from a production, and every production makes phrases. -/
theorem phrases_eq (c : Category) : phrases c = productions phrases c :=
  congrFun (OrderHom.map_lfp ⟨productions, productions_mono⟩).symm c

/-- Whether kinds begin some script, the end of input being a kind like the others. -/
def Viable (ks : List TokenKind) : Prop := ∃ rest, ks ++ rest ∈ phrases .program

/-- What begins a beginning of a script begins a script. -/
theorem Viable.of_append {ks rest : List TokenKind} (h : Viable (ks ++ rest)) : Viable ks := by
  obtain ⟨more, hmore⟩ := h
  exact ⟨rest ++ more, by rwa [← List.append_assoc]⟩

/-! ## Repetitions

Each repetition `x (sep x)*` is followed by a language `L`. Behind its first `x` stands `L`, or a
separator and the whole repetition again.
-/

variable {p : TokenKind → Prop} {k : TokenKind} {ks : List TokenKind} {L M : Language TokenKind}

/-- What may follow an operand of an expression that `L` follows. -/
def moreOperands (L : Language TokenKind) : Language TokenKind :=
  (token IsArithmetic * phrases .factor)∗ * L

/-- What may follow an argument, or an item of a list, when `L` follows the last of them. -/
def moreArguments (L : Language TokenKind) : Language TokenKind :=
  (exactly .comma * phrases .expression)∗ * L

/-- What may follow a statement of a sequence that `L` follows. -/
def moreStatements (L : Language TokenKind) : Language TokenKind :=
  (exactly .semicolon * phrases .statement)∗ * L

/-- A repetition with separators has ended, or goes on with a separator and an item. -/
private theorem kstar_mul_eq (sep item L : Language TokenKind) :
    (sep * item)∗ * L = L + sep * (item * (sep * item)∗ * L) := by
  conv_lhs => rw [← Language.one_add_self_mul_kstar_eq_kstar]
  rw [add_mul, one_mul, mul_assoc, mul_assoc, mul_assoc]

/-- Behind an operand the expression has ended, or an operator and another expression follow. -/
theorem moreOperands_eq :
    moreOperands L = L + token IsArithmetic * (phrases .expression * L) := by
  rw [phrases_eq .expression]
  exact kstar_mul_eq _ _ _

/-- Behind an argument the arguments have ended, or a comma and more arguments follow. -/
theorem moreArguments_eq :
    moreArguments L = L + exactly .comma * (phrases .arguments * L) := by
  rw [phrases_eq .arguments]
  exact kstar_mul_eq _ _ _

/-- Behind a statement the sequence has ended, or a `;` and another sequence follow. -/
theorem moreStatements_eq :
    moreStatements L = L + exactly .semicolon * (phrases .sequence * L) := by
  rw [phrases_eq .sequence]
  exact kstar_mul_eq _ _ _

/-- An expression begins with an operand. -/
theorem expression_mul : phrases .expression * L = phrases .factor * moreOperands L := by
  rw [phrases_eq .expression, moreOperands, ← mul_assoc]
  rfl

/-- Arguments begin with an expression. -/
theorem arguments_mul : phrases .arguments * L = phrases .expression * moreArguments L := by
  rw [phrases_eq .arguments, moreArguments, ← mul_assoc]
  rfl

/-- A sequence begins with a statement. -/
theorem sequence_mul : phrases .sequence * L = phrases .statement * moreStatements L := by
  rw [phrases_eq .sequence, moreStatements, ← mul_assoc]
  rfl

/-- A condition is two expressions with a relation between them. -/
theorem condition_mul :
    phrases .condition * L
      = phrases .expression * (token IsRelation * (phrases .expression * L)) := by
  rw [phrases_eq .condition, productions]
  simp only [mul_assoc]

/-! ## First tokens -/

@[simp]
theorem cons_mem_token_mul : k :: ks ∈ token p * L ↔ p k ∧ ks ∈ L := by
  rw [Language.mem_mul]
  constructor
  · rintro ⟨_, ⟨k', hk', rfl⟩, b, hb, h⟩
    obtain ⟨rfl, rfl⟩ := List.cons.inj h
    exact ⟨hk', hb⟩
  · rintro ⟨hk, hks⟩
    exact ⟨[k], ⟨k, hk, rfl⟩, ks, hks, rfl⟩

@[simp]
theorem cons_mem_token : k :: ks ∈ token p ↔ p k ∧ ks = [] := by
  rw [← mul_one (token p), cons_mem_token_mul, Language.mem_one]

theorem cons_mem_moreOperands :
    k :: ks ∈ moreOperands L ↔
      k :: ks ∈ L ∨ IsArithmetic k ∧ ks ∈ phrases .expression * L := by
  rw [moreOperands_eq, Language.mem_add, cons_mem_token_mul]

theorem cons_mem_moreArguments :
    k :: ks ∈ moreArguments L ↔ k :: ks ∈ L ∨ k = .comma ∧ ks ∈ phrases .arguments * L := by
  rw [moreArguments_eq, Language.mem_add, cons_mem_token_mul]

theorem cons_mem_moreStatements :
    k :: ks ∈ moreStatements L ↔ k :: ks ∈ L ∨ k = .semicolon ∧ ks ∈ phrases .sequence * L := by
  rw [moreStatements_eq, Language.mem_add, cons_mem_token_mul]

/-- What may follow the parenthesis that opens a call. -/
def callRest (L : Language TokenKind) : Language TokenKind :=
  (1 + phrases .arguments) * (exactly .closeParen * moreOperands L)

/-- What may follow the first token of an expression, with `L` behind the expression. -/
theorem cons_mem_expression_mul :
    k :: ks ∈ phrases .expression * L ↔
      IsLiteral k ∧ ks ∈ moreOperands L
        ∨ IsName k ∧ ks ∈ moreOperands L
        ∨ k = .openParen ∧ ks ∈ phrases .expression * (exactly .closeParen * moreOperands L)
        ∨ IsName k ∧ ks ∈ exactly .openParen * callRest L := by
  rw [expression_mul, phrases_eq .factor, productions]
  simp only [add_mul, mul_assoc, Language.mem_add, cons_mem_token_mul, callRest, or_assoc]

/-- What may follow the `=` of an assignment. -/
def assignmentRest (L : Language TokenKind) : Language TokenKind :=
  phrases .expression * L
    + exactly .openBracket * ((1 + phrases .arguments) * (exactly .closeBracket * L))

/-- What may follow the body of an `if`. -/
def orElse (L : Language TokenKind) : Language TokenKind :=
  L + exactly .wordElse * (exactly .colon * (phrases .sequence * L))

/-- What may follow the first token of a statement, with `L` behind the statement. -/
theorem cons_mem_statement_mul :
    k :: ks ∈ phrases .statement * L ↔
      IsName k ∧ ks ∈ exactly .assign * assignmentRest L
        ∨ k :: ks ∈ phrases .expression * L
        ∨ k = .wordIf
          ∧ ks ∈ phrases .condition * (exactly .colon * (phrases .sequence * orElse L))
        ∨ k = .wordFor
          ∧ ks ∈ token IsName * (exactly .wordIn * (exactly .wordRange * (exactly .openParen
            * (phrases .expression * (exactly .comma * (phrases .expression
            * (exactly .closeParen * (exactly .colon * (phrases .sequence * L)))))))))
        ∨ k = .wordWhile ∧ ks ∈ phrases .condition * (exactly .colon * (phrases .sequence * L))
        ∨ k = .wordPrint
          ∧ ks ∈ exactly .openParen * (phrases .expression * (exactly .closeParen * L)) := by
  rw [phrases_eq .statement, productions]
  simp only [add_mul, mul_assoc, Language.mem_add, cons_mem_token_mul, assignmentRest, orElse,
    or_assoc, one_mul]

end Plume.Grammar
