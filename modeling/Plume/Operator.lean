import Plume.Text.Basic

/-!
# Operators

Arithmetic operators build values; relations compare two values and give a truth value.
-/

namespace Plume

/-- An arithmetic operator. -/
inductive Arithmetic where
  | add
  | sub
  | mul
  | div
  deriving DecidableEq

/-- A comparison of two values. -/
inductive Relation where
  | eq
  | ne
  | lt
  | gt
  | le
  | ge
  deriving DecidableEq

/-- A binary operator. -/
inductive Operator where
  | arithmetic (op : Arithmetic)
  | relation (op : Relation)
  deriving DecidableEq

/-- How an arithmetic operator is written. -/
def Arithmetic.symbol : Arithmetic → Text
  | .add => "+"
  | .sub => "-"
  | .mul => "*"
  | .div => "/"

/-- How a relation is written. -/
def Relation.symbol : Relation → Text
  | .eq => "=="
  | .ne => "!="
  | .lt => "<"
  | .gt => ">"
  | .le => "<="
  | .ge => ">="

/-- How an operator is written. -/
def Operator.symbol : Operator → Text
  | .arithmetic op => op.symbol
  | .relation op => op.symbol

/-- Every operator, arithmetic before relations. -/
def Operator.all : List Operator :=
  [.arithmetic .add, .arithmetic .sub, .arithmetic .mul, .arithmetic .div, .relation .eq,
    .relation .ne, .relation .lt, .relation .gt, .relation .le, .relation .ge]

end Plume
