import Plume.Diagnostic
import Plume.Tree.Basic

/-!
# From tokens to trees

```
program    := sequence end
sequence   := statement (";" statement)*
statement  := "if" condition ":" sequence ["else" ":" sequence]
            | "for" name "in" "range" "(" expression "," expression ")" ":" sequence
            | "while" condition ":" sequence
            | "print" "(" expression ")"
            | name "=" "[" expressions "]"
            | name "=" expression
            | expression
condition  := expression relation expression
expression := term (("+" | "-") term)*
term       := factor (("*" | "/") factor)*
factor     := number | string | "True" | "False" | name | name "(" expressions ")"
            | "(" expression ")"
```

A body takes every statement that it can, and an `else` belongs to the nearest `if` that is still
open.

The tokens are read one at a time. A configuration holds what has been read and not yet completed:
the bodies that are open, the expression that is open in the current statement, and what may come
next. `Config.advance?` takes one token; the first token that it refuses is the error.
-/

namespace Plume

namespace Parser

/-! ## What has been read -/

/-- A compound statement up to the colon before its last body. -/
inductive Head where
  | ifThen (start : Position) (condition : Tree)
  | ifElse (start : Position) (condition body : Tree)
  | forRange (start : Position) (iterator : Ident) (first stop : Tree)
  | whileLoop (start : Position) (condition : Tree)

/-- The statement that a head and its last body make up. -/
def Head.complete (body : Tree) : Head → Tree
  | .ifThen start condition => .ifThen ⟨start, body.span.stop⟩ condition body
  | .ifElse start condition first => .ifElse ⟨start, body.span.stop⟩ condition first body
  | .forRange start iterator first stop =>
    .forRange ⟨start, body.span.stop⟩ iterator first stop body
  | .whileLoop start condition => .whileLoop ⟨start, body.span.stop⟩ condition body

/-- A body that is open: its head, and the statements before the head in their sequence. -/
structure OpenBody where
  head : Head
  before : List Tree

/-- The statements that are complete in the innermost open sequence, and the open bodies around it,
the innermost first. -/
structure Nest where
  before : List Tree
  outer : List OpenBody

/-- The words that a condition follows. -/
inductive Guard where
  | ifWord
  | whileWord

/-- The head that a condition completes. -/
def Guard.head (start : Position) (condition : Tree) : Guard → Head
  | .ifWord => .ifThen start condition
  | .whileWord => .whileLoop start condition

/-- What the open expression of a statement is for, with what the statement holds before it. -/
inductive Purpose where
  /-- The statement itself. -/
  | statement
  /-- The value of an assignment. -/
  | assigned (target : Ident)
  /-- An item of the list that is assigned, after the items `before`. -/
  | item (target : Ident) (opened : Position) (before : List Tree)
  /-- The left side of a condition. -/
  | compared (guard : Guard) (start : Position)
  /-- The right side of a condition. -/
  | comparand (guard : Guard) (start : Position) (op : Relation) (left : Tree)
  /-- The first bound of a range. -/
  | rangeFirst (start : Position) (iterator : Ident)
  /-- The second bound of a range. -/
  | rangeStop (start : Position) (iterator : Ident) (first : Tree)
  /-- The argument of `print`. -/
  | printed (start : Position)

/-- What an operand is waited for by. -/
inductive Waiting where
  /-- An operator with its left operand. -/
  | operator (left : Tree) (op : Arithmetic)
  /-- A parenthesis around an expression. -/
  | group
  /-- A call, after the arguments `before`. -/
  | argument (callee : Ident) (before : List Tree)

/-- What may come next. -/
inductive Phase where
  /-- A statement. -/
  | statement
  /-- An operand. -/
  | operand (purpose : Purpose) (waiting : List Waiting)
  /-- What follows a name: the arguments of a call, an assignment, or what follows an operand. -/
  | named (purpose : Purpose) (waiting : List Waiting) (name : Ident)
  /-- The arguments of a call, or none. -/
  | callOpened (purpose : Purpose) (waiting : List Waiting) (callee : Ident)
  /-- What follows an operand. -/
  | operated (purpose : Purpose) (waiting : List Waiting) (operand : Tree)
  /-- The value of an assignment. -/
  | assigned (target : Ident)
  /-- The items of a list, or none. -/
  | listOpened (target : Ident) (opened : Position)
  /-- The parenthesis after `print`. -/
  | printWord (start : Position)
  /-- The name after `for`. -/
  | forWord (start : Position)
  /-- The word `in`. -/
  | forNamed (start : Position) (iterator : Ident)
  /-- The word `range`. -/
  | forIn (start : Position) (iterator : Ident)
  /-- The parenthesis after `range`. -/
  | forRange (start : Position) (iterator : Ident)
  /-- The colon after a range. -/
  | forClosed (start : Position) (iterator : Ident) (first stop : Tree)
  /-- The colon after `else`. -/
  | elseWord (start : Position) (condition body : Tree)
  /-- What follows a statement. -/
  | stated (statement : Tree)

/-- How far the reading of a program has come. -/
inductive Config where
  | reading (nest : Nest) (phase : Phase)
  | finished (program : Program)

/-- Before the first token. -/
def Config.start : Config := .reading ⟨[], []⟩ .statement

/-! ## Statements -/

/-- A sequence as a body: a single statement is the body itself. -/
def bodyOf : List Tree → Tree → Tree
  | [], last => last
  | first :: more, last => .block (first.span.to last.span) (first :: more ++ [last])

/-- A sequence as a program. -/
def programOf (before : List Tree) (last : Tree) : Program :=
  ⟨(before.headD last).span.to last.span, before ++ [last]⟩

/-- Closes the bodies inside the nearest `if` that has no `else` yet, and that `if` up to its
`else`. -/
def closeToElse : List OpenBody → List Tree → Tree → Option Config
  | [], _, _ => none
  | ⟨head, around⟩ :: outer, before, last =>
    let body := bodyOf before last
    match head with
    | .ifThen start condition => some (.reading ⟨around, outer⟩ (.elseWord start condition body))
    | _ => closeToElse outer around (head.complete body)

/-- Closes every body that is open. -/
def closeAll : List OpenBody → List Tree → Tree → Program
  | [], before, last => programOf before last
  | ⟨head, around⟩ :: outer, before, last =>
    closeAll outer around (head.complete (bodyOf before last))

/-- The token after a complete statement. -/
def afterStatement? (nest : Nest) (statement : Tree) (t : Token) : Option Config :=
  match t.kind with
  | .semicolon => some (.reading ⟨nest.before ++ [statement], nest.outer⟩ .statement)
  | .wordElse => closeToElse nest.outer nest.before statement
  | .endOfInput => some (.finished (closeAll nest.outer nest.before statement))
  | _ => none

/-- Opens a body behind the given head. -/
def openBody (nest : Nest) (head : Head) : Config :=
  .reading ⟨[], ⟨head, nest.before⟩ :: nest.outer⟩ .statement

/-! ## Expressions -/

/-- The first token of an operand. -/
def startOperand? (purpose : Purpose) (waiting : List Waiting) (t : Token) : Option Phase :=
  match t.kind with
  | .number value => some (.operated purpose waiting (.number t.span value))
  | .string value => some (.operated purpose waiting (.string t.span value))
  | .wordTrue => some (.operated purpose waiting (.boolean t.span true))
  | .wordFalse => some (.operated purpose waiting (.boolean t.span false))
  | .name name => some (.named purpose waiting ⟨t.span, name⟩)
  | .openParen => some (.operand purpose (.group :: waiting))
  | _ => none

/-- Whether an operator is `*` or `/`, which bind more tightly than `+` and `-`. -/
def isProduct : Arithmetic → Bool
  | .mul | .div => true
  | .add | .sub => false

/-- Gives the operand to the operators that wait for it, the innermost first, as far as `takes`
lets them take it. -/
def giveOperand (takes : Arithmetic → Bool) : List Waiting → Tree → List Waiting × Tree
  | .operator left op :: waiting, operand =>
    if takes op then giveOperand takes waiting (.join (.arithmetic op) left operand)
    else (.operator left op :: waiting, operand)
  | waiting, operand => (waiting, operand)

/-- A call that ends with the token `t`. -/
def callTree (callee : Ident) (arguments : List Tree) (t : Token) : Tree :=
  .call (callee.span.to t.span) callee arguments

/-- The assignment of a list that ends with the token `t`. -/
def listAssignment (target : Ident) (opened : Position) (items : List Tree) (t : Token) : Tree :=
  let list := Tree.list ⟨opened, t.span.stop⟩ items
  .assign (target.span.to list.span) target list

/-- The token after a complete expression. -/
def afterExpression? (nest : Nest) (purpose : Purpose) (e : Tree) (t : Token) : Option Config :=
  match purpose, t.kind with
  | .statement, _ => afterStatement? nest e t
  | .assigned target, _ => afterStatement? nest (.assign (target.span.to e.span) target e) t
  | .item target opened before, .comma =>
    some (.reading nest (.operand (.item target opened (before ++ [e])) []))
  | .item target opened before, .closeBracket =>
    some (.reading nest (.stated (listAssignment target opened (before ++ [e]) t)))
  | .compared guard start, .relation op =>
    some (.reading nest (.operand (.comparand guard start op e) []))
  | .comparand guard start op left, .colon =>
    some (openBody nest (guard.head start (.join (.relation op) left e)))
  | .rangeFirst start iterator, .comma =>
    some (.reading nest (.operand (.rangeStop start iterator e) []))
  | .rangeStop start iterator first, .closeParen =>
    some (.reading nest (.forClosed start iterator first e))
  | .printed start, .closeParen =>
    some (.reading nest (.stated (.print ⟨start, t.span.stop⟩ e)))
  | _, _ => none

/-- The token after an operand. An operator first lets those take the operand that bind at least as
tightly; any other token lets all of them. -/
def afterOperand? (nest : Nest) (purpose : Purpose) (waiting : List Waiting) (operand : Tree)
    (t : Token) : Option Config :=
  match t.kind with
  | .arithmetic op =>
    let (waiting, operand) :=
      giveOperand (fun earlier => isProduct earlier || !isProduct op) waiting operand
    some (.reading nest (.operand purpose (.operator operand op :: waiting)))
  | kind =>
    let (waiting, operand) := giveOperand (fun _ => true) waiting operand
    match waiting, kind with
    | .group :: waiting, .closeParen => some (.reading nest (.operated purpose waiting operand))
    | .argument callee before :: waiting, .comma =>
      some (.reading nest (.operand purpose (.argument callee (before ++ [operand]) :: waiting)))
    | .argument callee before :: waiting, .closeParen =>
      some (.reading nest
        (.operated purpose waiting (callTree callee (before ++ [operand]) t)))
    | [], _ => afterExpression? nest purpose operand t
    | _, _ => none

/-! ## Tokens -/

/-- Takes one token in the given phase. -/
def Phase.advance? (nest : Nest) (t : Token) : Phase → Option Config
  | .statement =>
    match t.kind with
    | .wordIf => some (.reading nest (.operand (.compared .ifWord t.span.start) []))
    | .wordWhile => some (.reading nest (.operand (.compared .whileWord t.span.start) []))
    | .wordFor => some (.reading nest (.forWord t.span.start))
    | .wordPrint => some (.reading nest (.printWord t.span.start))
    | _ => (startOperand? .statement [] t).map (.reading nest)
  | .operand purpose waiting => (startOperand? purpose waiting t).map (.reading nest)
  | .named purpose waiting name =>
    match purpose, waiting, t.kind with
    | _, _, .openParen => some (.reading nest (.callOpened purpose waiting name))
    | .statement, [], .assign => some (.reading nest (.assigned name))
    | _, _, _ => afterOperand? nest purpose waiting (.ofIdent name) t
  | .callOpened purpose waiting callee =>
    match t.kind with
    | .closeParen => some (.reading nest (.operated purpose waiting (callTree callee [] t)))
    | _ => (startOperand? purpose (.argument callee [] :: waiting) t).map (.reading nest)
  | .operated purpose waiting e => afterOperand? nest purpose waiting e t
  | .assigned target =>
    match t.kind with
    | .openBracket => some (.reading nest (.listOpened target t.span.start))
    | _ => (startOperand? (.assigned target) [] t).map (.reading nest)
  | .listOpened target opened =>
    match t.kind with
    | .closeBracket => some (.reading nest (.stated (listAssignment target opened [] t)))
    | _ => (startOperand? (.item target opened []) [] t).map (.reading nest)
  | .printWord start =>
    match t.kind with
    | .openParen => some (.reading nest (.operand (.printed start) []))
    | _ => none
  | .forWord start =>
    match t.kind with
    | .name name => some (.reading nest (.forNamed start ⟨t.span, name⟩))
    | _ => none
  | .forNamed start iterator =>
    match t.kind with
    | .wordIn => some (.reading nest (.forIn start iterator))
    | _ => none
  | .forIn start iterator =>
    match t.kind with
    | .wordRange => some (.reading nest (.forRange start iterator))
    | _ => none
  | .forRange start iterator =>
    match t.kind with
    | .openParen => some (.reading nest (.operand (.rangeFirst start iterator) []))
    | _ => none
  | .forClosed start iterator first stop =>
    match t.kind with
    | .colon => some (openBody nest (.forRange start iterator first stop))
    | _ => none
  | .elseWord start condition body =>
    match t.kind with
    | .colon => some (openBody nest (.ifElse start condition body))
    | _ => none
  | .stated s => afterStatement? nest s t

/-- Takes one token. Nothing follows the end of input. -/
def Config.advance? (t : Token) : Config → Option Config
  | .reading nest phase => phase.advance? nest t
  | .finished _ => none

/-- Reads the tokens on from a configuration. The first token that cannot stand where it does is the
error; so is a lack of tokens before the end of input. -/
def parseFrom : Config → List Token → Except Diagnostic Program
  | .finished program, [] => .ok program
  | .reading .., [] => .error ⟨.unexpectedEnd, ⟨1, 1⟩⟩
  | config, t :: rest =>
    match config.advance? t with
    | some next => parseFrom next rest
    | none => .error t.unexpected

end Parser

/-- The program that tokens make up, the end of input being the last of them. -/
def parse (tokens : List Token) : Except Diagnostic Program :=
  Parser.parseFrom .start tokens

end Plume
