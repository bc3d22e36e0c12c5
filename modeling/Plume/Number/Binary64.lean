/-!
# Binary64 floating-point numbers

A finite number is a whole number of *units* of 2^-1074, the least positive number. `ofRatio`
rounds any ratio of units to the nearest number, a tie to the even one, and every operation is an
exact result in units followed by one such rounding.
-/

namespace Plume

/-- The number of fractions that share an exponent: two to the power of 52. -/
abbrev Binary64.fractions : Nat := 4503599627370496

/-- An IEEE 754 binary64 number. All NaNs are one. -/
inductive Binary64 where
  | finite (negative : Bool) (exponent : Fin 2047) (fraction : Fin Binary64.fractions)
  | infinity (negative : Bool)
  | nan
  deriving DecidableEq

namespace Binary64

/-- How many units make one. -/
def unitsPerOne : Nat := Nat.pow 2 1074

/-- The units of the magnitude with the given exponent field and fraction field. -/
def unitsOf (exponent fraction : Nat) : Nat :=
  if exponent = 0 then fraction else (fractions + fraction) * Nat.pow 2 (exponent - 1)

/-- The `k`-th magnitude in increasing order, and infinity after the greatest. -/
def ofOrdinal (negative : Bool) (k : Nat) : Binary64 :=
  if h : k / fractions < 2047 then
    .finite negative ⟨k / fractions, h⟩ ⟨k % fractions, Nat.mod_lt _ (by decide)⟩
  else .infinity negative

/-- The quotient rounded to the nearest whole number, a tie to the even one. -/
def roundHalfEven (num den : Nat) : Nat :=
  let quotient := num / den
  let remainder := num % den
  if 2 * remainder < den then quotient
  else if den < 2 * remainder then quotient + 1
  else quotient + quotient % 2

/-- The number nearest to `num / den` units. The quotient keeps 53 significant bits; its ordinal is
then `fractions` for each bit dropped, plus the significand. -/
def ofRatio (negative : Bool) (num den : Nat) : Binary64 :=
  let dropped := Nat.log2 (num / den) - 52
  ofOrdinal negative (dropped * fractions + roundHalfEven num (den * Nat.pow 2 dropped))

/-- The zero of the given sign. -/
def zero (negative : Bool) : Binary64 := .finite negative ⟨0, by decide⟩ ⟨0, by decide⟩

/-- The number nearest to an integer. -/
def ofInt (n : Int) : Binary64 := ofRatio (n < 0) (n.natAbs * unitsPerOne) 1

/-! ## Order -/

/-- Where a number stands among all numbers: its units, with infinity above every finite one. NaN
stands nowhere. -/
def rank? : Binary64 → Option Int
  | .finite negative e f =>
    let units : Int := unitsOf e f
    some (if negative then -units else units)
  | .infinity negative =>
    let units : Int := Nat.pow 2 2098
    some (if negative then -units else units)
  | .nan => none

/-- The order of two numbers, of which neither is NaN. -/
def compare? (x y : Binary64) : Option Ordering :=
  match x.rank?, y.rank? with
  | some a, some b => some (compare a b)
  | _, _ => none

/-- Numerical equality: the two zeros are equal, and NaN equals nothing. -/
def equal (x y : Binary64) : Bool := x.compare? y == some .eq

/-- Whether the number is one of the two zeros. -/
def isZero : Binary64 → Bool
  | .finite _ e f => e.val == 0 && f.val == 0
  | _ => false

/-- Whether the number is one of the two infinities. -/
def isInfinite : Binary64 → Bool
  | .infinity _ => true
  | _ => false

/-! ## Arithmetic -/

/-- The number with the opposite sign. -/
def neg : Binary64 → Binary64
  | .finite negative e f => .finite (!negative) e f
  | .infinity negative => .infinity (!negative)
  | .nan => .nan

/-- The sum. A sum that is exactly zero is positive unless both terms are negative. -/
def add : Binary64 → Binary64 → Binary64
  | .finite s e f, .finite t e' f' =>
    let signed (negative : Bool) (units : Nat) : Int := if negative then -units else units
    let sum := signed s (unitsOf e f) + signed t (unitsOf e' f')
    if sum = 0 then zero (s && t) else ofRatio (sum < 0) sum.natAbs 1
  | .infinity s, .infinity t => if s = t then .infinity s else .nan
  | .infinity s, .finite .. => .infinity s
  | .finite .., .infinity t => .infinity t
  | .nan, _ => .nan
  | _, .nan => .nan

/-- The difference. -/
def sub (x y : Binary64) : Binary64 := x.add y.neg

/-- The product. Zero times infinity is NaN. -/
def mul : Binary64 → Binary64 → Binary64
  | .finite s e f, .finite t e' f' =>
    ofRatio (s != t) (unitsOf e f * unitsOf e' f') unitsPerOne
  | .infinity s, .infinity t => .infinity (s != t)
  | .infinity s, .finite t e f => if unitsOf e f = 0 then .nan else .infinity (s != t)
  | .finite s e f, .infinity t => if unitsOf e f = 0 then .nan else .infinity (s != t)
  | .nan, _ => .nan
  | _, .nan => .nan

/-- The quotient. Zero by zero and infinity by infinity are NaN. -/
def div : Binary64 → Binary64 → Binary64
  | .finite s e f, .finite t e' f' =>
    if unitsOf e' f' = 0 then
      if unitsOf e f = 0 then .nan else .infinity (s != t)
    else ofRatio (s != t) (unitsOf e f * unitsPerOne) (unitsOf e' f')
  | .infinity _, .infinity _ => .nan
  | .infinity s, .finite t .. => .infinity (s != t)
  | .finite s .., .infinity t => zero (s != t)
  | .nan, _ => .nan
  | _, .nan => .nan

/-! ## Interchange format -/

/-- The number of a 64-bit word: the sign bit, eleven exponent bits, fifty-two fraction bits. -/
def ofBits (word : Nat) : Binary64 :=
  let ordinal := word % (2048 * fractions)
  if ordinal ≤ 2047 * fractions then ofOrdinal (2048 * fractions ≤ word) ordinal else .nan

/-- The 64-bit word of a number. NaN is the quiet one without further bits. -/
def toBits : Binary64 → Nat
  | .finite negative e f => (if negative then 2048 * fractions else 0) + e * fractions + f
  | .infinity negative => (if negative then 2048 * fractions else 0) + 2047 * fractions
  | .nan => 2047 * fractions + fractions / 2

end Binary64

end Plume
