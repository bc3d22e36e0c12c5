import Plume.Number.Decimal

/-!
# The text of binary64 numbers

Numbers from `10 ^ -4` up to but not including `10 ^ 16` are written positionally, with at least
one digit on each side of the point. All others are written with an exponent that has a sign and
at least two digits.
-/

namespace Plume

namespace Decimal

/-- The significant digits: those of `digits` without the zeros at the end. -/
def significant (d : Decimal) : Text :=
  ((Text.ofNat d.digits).reverse.dropWhile (· == Text.digit 0)).reverse

/-- The power of ten of the first digit. -/
def leadingPower (d : Decimal) : Int := d.exponent + (Text.ofNat d.digits).length - 1

/-- Digits with a point in them, `power` being the power of ten of the first digit. -/
def positional (digits : Text) (power : Int) : Text :=
  match power with
  | .negSucc n => "0." ++ List.replicate n (Text.digit 0) ++ digits
  | .ofNat n =>
    if digits.length ≤ n + 1 then
      digits ++ List.replicate (n + 1 - digits.length) (Text.digit 0) ++ ".0"
    else digits.take (n + 1) ++ "." ++ digits.drop (n + 1)

/-- An exponent as at least two digits. -/
def twoDigits (n : Nat) : Text :=
  if n < 10 then Text.digit 0 :: Text.ofNat n else Text.ofNat n

/-- One digit, the others after a point if there are any, and the power of ten. -/
def scientific (digits : Text) (power : Int) : Text :=
  let mantissa := if digits.length ≤ 1 then digits else digits.take 1 ++ "." ++ digits.drop 1
  mantissa ++ (if power < 0 then "e-" else "e+") ++ twoDigits power.natAbs

/-- The text of a positive decimal. -/
def text (d : Decimal) : Text :=
  let power := d.leadingPower
  if -4 ≤ power ∧ power < 16 then positional d.significant power
  else scientific d.significant power

end Decimal

/-- The text of a number: the shortest digits that read back as it, behind its sign. -/
def Binary64.text : Binary64 → Text
  | .nan => "nan"
  | .infinity negative => if negative then "-inf" else "inf"
  | .finite negative e f =>
    let magnitude : Text := if e.val = 0 ∧ f.val = 0 then "0.0" else (Decimal.shortest e f).text
    if negative then "-" ++ magnitude else magnitude

end Plume
