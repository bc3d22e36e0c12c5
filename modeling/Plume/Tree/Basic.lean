import Plume.Token.Basic

/-!
# Trees

A tree is an expression or a statement, with the stretch of source that it was read from. The
grammar keeps the two apart, but a tree may hold either in any place.
-/

namespace Plume

/-- A name and where it stands. -/
structure Ident where
  span : Span
  name : Text
  deriving DecidableEq

/-- An expression or a statement. -/
inductive Tree where
  | number (span : Span) (value : Number)
  | boolean (span : Span) (value : Bool)
  | string (span : Span) (value : Text)
  | reference (span : Span) (name : Text)
  | binary (span : Span) (op : Operator) (left right : Tree)
  | list (span : Span) (items : List Tree)
  | call (span : Span) (callee : Ident) (arguments : List Tree)
  | block (span : Span) (statements : List Tree)
  | assign (span : Span) (target : Ident) (value : Tree)
  | ifThen (span : Span) (condition body : Tree)
  | ifElse (span : Span) (condition body otherwise : Tree)
  | forRange (span : Span) (iterator : Ident) (first stop body : Tree)
  | whileLoop (span : Span) (condition body : Tree)
  | print (span : Span) (argument : Tree)

/-- A script as a tree: the statements at its top. -/
structure Program where
  span : Span
  statements : List Tree

/-- A program as one block. -/
def Program.toTree (p : Program) : Tree := .block p.span p.statements

namespace Tree

/-- The stretch of source that a tree was read from. -/
def span : Tree → Span
  | .number s _ | .boolean s _ | .string s _ | .reference s _ | .binary s .. | .list s _
  | .call s .. | .block s _ | .assign s .. | .ifThen s .. | .ifElse s .. | .forRange s ..
  | .whileLoop s .. | .print s _ => s

/-- A name as an expression. -/
def ofIdent (x : Ident) : Tree := .reference x.span x.name

/-- Two operands joined by an operator. -/
def join (op : Operator) (left right : Tree) : Tree :=
  .binary (left.span.to right.span) op left right

end Tree

end Plume
