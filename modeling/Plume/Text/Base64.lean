import Plume.Text.Basic

/-!
# Base64

`encode` writes bytes in the standard alphabet with padding. `decode?` forgives ASCII white space
and missing padding, and refuses everything else.
-/

namespace Plume.Base64

/-- The unit `=`, which fills the last group of four. -/
def padding : CodeUnit := 0x3D

/-- The unit of the standard alphabet for a number below 64. -/
def sextet (n : Nat) : CodeUnit :=
  UInt16.ofNat <|
    if n < 26 then 0x41 + n
    else if n < 52 then 0x61 + (n - 26)
    else if n < 62 then 0x30 + (n - 52)
    else if n = 62 then 0x2B
    else 0x2F

/-- The number below 64 that a unit of the standard alphabet stands for. -/
def sextetValue? (u : CodeUnit) : Option Nat :=
  let n := u.toNat
  if 0x41 ≤ n ∧ n ≤ 0x5A then some (n - 0x41)
  else if 0x61 ≤ n ∧ n ≤ 0x7A then some (n - 0x61 + 26)
  else if 0x30 ≤ n ∧ n ≤ 0x39 then some (n - 0x30 + 52)
  else if n = 0x2B then some 62
  else if n = 0x2F then some 63
  else none

/-- Three bytes as four units of the alphabet, with padding where the bytes run out. -/
def encode : List UInt8 → Text
  | [] => []
  | [a] =>
    let a := a.toNat
    [sextet (a / 4), sextet (a % 4 * 16), padding, padding]
  | [a, b] =>
    let a := a.toNat
    let b := b.toNat
    [sextet (a / 4), sextet (a % 4 * 16 + b / 16), sextet (b % 16 * 4), padding]
  | a :: b :: c :: rest =>
    let a := a.toNat
    let b := b.toNat
    let c := c.toNat
    sextet (a / 4) :: sextet (a % 4 * 16 + b / 16) :: sextet (b % 16 * 4 + c / 64)
      :: sextet (c % 64) :: encode rest

/-- The bytes that groups of four six-bit numbers make up. A last group of two or three numbers
gives one or two bytes, and the bits left over are dropped. -/
def bytesOfSextets : List Nat → List UInt8
  | a :: b :: c :: d :: rest =>
    UInt8.ofNat (a * 4 + b / 16) :: UInt8.ofNat (b % 16 * 16 + c / 4)
      :: UInt8.ofNat (c % 4 * 64 + d) :: bytesOfSextets rest
  | [a, b, c] => [UInt8.ofNat (a * 4 + b / 16), UInt8.ofNat (b % 16 * 16 + c / 4)]
  | [a, b] => [UInt8.ofNat (a * 4 + b / 16)]
  | _ => []

/-- The white space that decoding skips: tab, LF, form feed, CR and space. -/
def isSkipped (u : CodeUnit) : Bool :=
  u == 0x09 || u == 0x0A || u == 0x0C || u == 0x0D || u == 0x20

/-- The units without the one or two padding units that end a text of whole groups. -/
def unpadded (t : Text) : Text :=
  if t.length % 4 = 0 then
    if [padding, padding].isSuffixOf t then t.take (t.length - 2)
    else if [padding].isSuffixOf t then t.take (t.length - 1)
    else t
  else t

/-- The bytes that a text encodes. There are none when, white space and padding aside, a unit is
outside the alphabet or a single unit is left over. -/
def decode? (t : Text) : Option (List UInt8) :=
  let body := unpadded (t.filter (!isSkipped ·))
  if body.length % 4 = 1 then none else (body.mapM sextetValue?).map bytesOfSextets

end Plume.Base64
