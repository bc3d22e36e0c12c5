import Plume.Text.Basic

/-!
# Decimal digits

`ofNat` and `ofInt` write numbers in decimal, without leading zeros. `digitsValue` reads a run of
digits.
-/

namespace Plume.Text

/-- The digit for `d`, when `d` is below ten. -/
def digit (d : Nat) : CodeUnit := UInt16.ofNat (0x30 + d)

/-- The number a digit stands for. -/
def digitValue (u : CodeUnit) : Nat := u.toNat - 0x30

/-- The decimal digits of `n` in front of `rest`. -/
def digitsBefore (n : Nat) (rest : Text) : Text :=
  if n < 10 then digit n :: rest else digitsBefore (n / 10) (digit (n % 10) :: rest)
termination_by n

/-- The decimal digits of `n`. -/
def ofNat (n : Nat) : Text := digitsBefore n []

/-- An integer in decimal, with a minus sign in front of a negative one. -/
def ofInt : Int → Text
  | .ofNat n => ofNat n
  | .negSucc n => "-" ++ ofNat (n + 1)

/-- The number that a run of digits stands for. -/
def digitsValue (ds : Text) : Nat := ds.foldl (fun value d => 10 * value + digitValue d) 0

end Plume.Text
