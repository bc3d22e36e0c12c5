import Plume.Number.Binary64
import Plume.Text.Decimal

/-!
# Decimal digits of binary64 numbers

`Binary64.ofDecimal` reads a decimal as the nearest number. `Decimal.shortest` is the decimal with
the fewest digits that reads back as a given magnitude, and of two such the nearer one.
-/

namespace Plume

/-- The number `digits * 10 ^ exponent`. -/
structure Decimal where
  digits : Nat
  exponent : Int
  deriving DecidableEq

/-- The binary64 number nearest to a decimal of the given sign. -/
def Binary64.ofDecimal (negative : Bool) (d : Decimal) : Binary64 :=
  if 0 ≤ d.exponent then
    ofRatio negative (d.digits * Nat.pow 10 d.exponent.toNat * unitsPerOne) 1
  else ofRatio negative (d.digits * unitsPerOne) (Nat.pow 10 (-d.exponent).toNat)

namespace Decimal

/-- The least `k` with the magnitude below `10 ^ k`. Since one unit is more than `10 ^ -324`, the
whole part of `10 ^ 324` times the magnitude has a digit for each power of ten up to it. -/
def decade (units : Nat) : Int :=
  ((Text.ofNat (units * Nat.pow 10 324 / Binary64.unitsPerOne)).length : Int) - 324

/-- The magnitude divided by `10 ^ exponent`, as a ratio. -/
def scaled (units : Nat) (exponent : Int) : Nat × Nat :=
  if 0 ≤ exponent then (units, Binary64.unitsPerOne * Nat.pow 10 exponent.toNat)
  else (units * Nat.pow 10 (-exponent).toNat, Binary64.unitsPerOne)

/-- Of the two decimals on either side of the magnitude `num / den * 10 ^ exponent`, the one that
reads back as it. If both do, the nearer one is taken, and of two equally near the even one. -/
def readBack? (magnitude : Binary64) (exponent : Int) (num den : Nat) : Option Decimal :=
  let below : Decimal := ⟨num / den, exponent⟩
  let above : Decimal := ⟨num / den + 1, exponent⟩
  let readsBack (d : Decimal) := Binary64.ofDecimal false d = magnitude
  if readsBack below then
    if readsBack above then some ⟨Binary64.roundHalfEven num den, exponent⟩ else some below
  else if readsBack above then some above else none

/-- The decimal of `count` digits next to a magnitude that reads back as it. -/
def neighbour? (magnitude : Binary64) (units count : Nat) : Option Decimal :=
  let exponent := decade units - count
  let ratio := scaled units exponent
  readBack? magnitude exponent ratio.1 ratio.2

/-- Every digit of a magnitude: a unit is `5 ^ 1074 * 10 ^ -1074`. The search for the shortest
decimal falls back on it, but seventeen digits are always enough, so that it never comes to this. -/
def full (units : Nat) : Decimal := ⟨units * Nat.pow 5 1074, -1074⟩

/-- The decimal of the fewest digits that reads back as the magnitude with the given fields. -/
def shortest (exponent : Fin 2047) (fraction : Fin Binary64.fractions) : Decimal :=
  let units := Binary64.unitsOf exponent fraction
  ((List.range' 1 17).findSome? (neighbour? (.finite false exponent fraction) units)).getD
    (full units)

end Decimal

end Plume
