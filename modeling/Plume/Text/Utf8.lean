import Plume.Text.Basic

/-!
# UTF-8

`encode` writes characters as UTF-8. `decode` reads any bytes at all: each longest run of bytes that
starts a character but cannot be completed becomes one replacement character, and so does each byte
that can start nothing.
-/

namespace Plume.Utf8

open Text (replacement)

/-- The continuation byte for the low six bits of `n`. -/
def continuation (n : Nat) : UInt8 := UInt8.ofNat (0x80 + n % 64)

/-- The one to four bytes of a character. -/
def encodeChar (c : Char) : List UInt8 :=
  let n := c.toNat
  if n < 0x80 then [UInt8.ofNat n]
  else if n < 0x800 then [UInt8.ofNat (0xC0 + n / 64), continuation n]
  else if n < 0x10000 then
    [UInt8.ofNat (0xE0 + n / 4096), continuation (n / 64), continuation n]
  else
    [UInt8.ofNat (0xF0 + n / 262144), continuation (n / 4096), continuation (n / 64),
      continuation n]

/-- The bytes of a sequence of characters. -/
def encode (cs : List Char) : List UInt8 := cs.flatMap encodeChar

/-- A character of which some bytes have been read: the bits so far, the range of the next byte,
and the number of continuation bytes after that one. -/
structure OpenChar where
  value : Nat
  low : UInt8
  high : UInt8
  after : Nat

/-- What the first byte of a character gives: the characters that are complete, and the character
that it leaves open. E0, ED, F0 and F4 narrow the range of the byte after them, which keeps out
overlong forms, surrogates and what lies beyond U+10FFFF. -/
def start (b : UInt8) : List Char × Option OpenChar :=
  let n := b.toNat
  if n < 0x80 then ([Char.ofNat n], none)
  else if n < 0xC2 then ([replacement], none)
  else if n < 0xE0 then ([], some ⟨n - 0xC0, 0x80, 0xBF, 0⟩)
  else if n < 0xF0 then
    ([], some ⟨n - 0xE0, if n = 0xE0 then 0xA0 else 0x80, if n = 0xED then 0x9F else 0xBF, 1⟩)
  else if n < 0xF5 then
    ([], some ⟨n - 0xF0, if n = 0xF0 then 0x90 else 0x80, if n = 0xF4 then 0x8F else 0xBF, 2⟩)
  else ([replacement], none)

/-- What one more byte gives. A byte outside the expected range ends the open character as a
replacement character and is then read as a first byte. -/
def step : Option OpenChar → UInt8 → List Char × Option OpenChar
  | none, b => start b
  | some p, b =>
    if p.low ≤ b && b ≤ p.high then
      let value := p.value * 64 + (b.toNat - 0x80)
      match p.after with
      | 0 => ([Char.ofNat value], none)
      | n + 1 => ([], some ⟨value, 0x80, 0xBF, n⟩)
    else
      let (cs, next) := start b
      (replacement :: cs, next)

/-- The characters of the bytes, with `p` the character that is open before them. -/
def decodeFrom (p : Option OpenChar) : List UInt8 → List Char
  | [] => if p.isSome then [replacement] else []
  | b :: rest =>
    let (cs, next) := step p b
    cs ++ decodeFrom next rest

/-- The characters of the bytes. -/
def decode (bytes : List UInt8) : List Char := decodeFrom none bytes

end Plume.Utf8
