import Plume.Number.Layout
import Plume.Operator

/-!
# Numbers of the language

A number is an integer of any size or a binary64 number. Two integers are added, subtracted,
multiplied and compared exactly; where a float takes part, both numbers are first made floats.
Division is always a division of floats.
-/

namespace Plume

/-- A number of the language. -/
inductive Number where
  | int (n : Int)
  | float (x : Binary64)
  deriving DecidableEq

namespace Number

/-- The nearest float. -/
def toFloat : Number → Binary64
  | .int n => Binary64.ofInt n
  | .float x => x

/-- Whether the number is zero. -/
def isZero : Number → Bool
  | .int n => n == 0
  | .float x => x.isZero

/-- The text of a number. -/
def text : Number → Text
  | .int n => Text.ofInt n
  | .float x => x.text

/-- Numerical equality. -/
def equal : Number → Number → Bool
  | .int m, .int n => m == n
  | a, b => a.toFloat.equal b.toFloat

/-- The order of two numbers. There is none when one of them is NaN. -/
def compare? : Number → Number → Option Ordering
  | .int m, .int n => some (compare m n)
  | a, b => a.toFloat.compare? b.toFloat

/-- The sum. -/
def add : Number → Number → Number
  | .int m, .int n => .int (m + n)
  | a, b => .float (a.toFloat.add b.toFloat)

/-- The difference. -/
def sub : Number → Number → Number
  | .int m, .int n => .int (m - n)
  | a, b => .float (a.toFloat.sub b.toFloat)

/-- The product. -/
def mul : Number → Number → Number
  | .int m, .int n => .int (m * n)
  | a, b => .float (a.toFloat.mul b.toFloat)

/-- The quotient, unless the divisor is zero as a float. -/
def div? (a b : Number) : Option Number :=
  if b.toFloat.isZero then none else some (.float (a.toFloat.div b.toFloat))

/-- The result of an arithmetic operator. There is none for a division by zero. -/
def calculate? : Arithmetic → Number → Number → Option Number
  | .add, a, b => some (a.add b)
  | .sub, a, b => some (a.sub b)
  | .mul, a, b => some (a.mul b)
  | .div, a, b => a.div? b

/-- The number that a run of digits, or two runs around a point, stands for: without a point an
integer, with one the nearest float. -/
def ofDigits (whole : Text) : Option Text → Number
  | none => .int (Text.digitsValue whole)
  | some fraction =>
    .float (Binary64.ofDecimal false ⟨Text.digitsValue (whole ++ fraction), -fraction.length⟩)

end Number

end Plume
