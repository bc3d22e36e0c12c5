/-!
# Text as UTF-16 code units

Columns, lengths, cursors and the order of strings all count UTF-16 code units, and a surrogate
may stand alone. `Text` is therefore a list of code units. `Text.ofString` writes characters as
units; `Text.scalars` reads them back, with unpaired surrogates kept apart.
-/

namespace Plume

/-- A UTF-16 code unit. -/
abbrev CodeUnit := UInt16

/-- A sequence of UTF-16 code units, in which surrogates need not be paired. -/
abbrev Text := List CodeUnit

/-! ## Repeated lists -/

/-- The list written `n` times. The empty list is not written over and over. -/
def repeated {α : Type} (n : Nat) (l : List α) : List α :=
  if l.isEmpty then [] else Nat.repeat (l ++ ·) n []

section Repeated

variable {α : Type} {l : List α} {x : α}

/-- One copy and then the others. -/
theorem repeated_succ (n : Nat) (l : List α) : repeated (n + 1) l = l ++ repeated n l := by
  unfold repeated
  split
  next hempty => rw [List.isEmpty_iff.mp hempty, List.append_nil]
  next => rw [Nat.repeat]

/-- The copies of a list, one behind the other. -/
theorem repeated_eq (n : Nat) (l : List α) : repeated n l = (List.replicate n l).flatten := by
  induction n with
  | zero => cases l <;> rfl
  | succ n ih => rw [repeated_succ, ih, List.replicate_succ, List.flatten_cons]

theorem length_repeated (n : Nat) (l : List α) : (repeated n l).length = l.length * n := by
  rw [repeated_eq]
  simp [Nat.mul_comm]

/-- A repetition holds nothing new. -/
theorem mem_of_mem_repeated {n : Nat} (h : x ∈ repeated n l) : x ∈ l := by
  rw [repeated_eq] at h
  obtain ⟨l', hl', hx⟩ := List.mem_flatten.mp h
  rwa [List.eq_of_mem_replicate hl'] at hx

end Repeated

/-! ## Code units -/

namespace CodeUnit

/-- A unit that opens a surrogate pair. -/
def isHighSurrogate (u : CodeUnit) : Bool := 0xD800 ≤ u && u ≤ 0xDBFF

/-- A unit that closes a surrogate pair. -/
def isLowSurrogate (u : CodeUnit) : Bool := 0xDC00 ≤ u && u ≤ 0xDFFF

/-- The unit LF, which ends a line. -/
def lineFeed : CodeUnit := 0x0A

/-- The unit CR, which belongs to a line's end when LF follows it. -/
def carriageReturn : CodeUnit := 0x0D

/-- An ASCII letter or the underscore. -/
def isLetter (u : CodeUnit) : Bool :=
  (0x41 ≤ u && u ≤ 0x5A) || (0x61 ≤ u && u ≤ 0x7A) || u == 0x5F

/-- An ASCII digit. -/
def isDigit (u : CodeUnit) : Bool := 0x30 ≤ u && u ≤ 0x39

/-- A unit that continues a name: a letter, the underscore or a digit. -/
def isNameUnit (u : CodeUnit) : Bool := isLetter u || isDigit u

/-- A space or a tab. -/
def isSpaceOrTab (u : CodeUnit) : Bool := u == 0x20 || u == 0x09

/-- The white space that trimming removes: tab to CR, the space, the no-break spaces, the Unicode
space separators, the line and paragraph separators, and the byte order mark. U+0085 and U+200B
are not among them. -/
def isWhite (u : CodeUnit) : Bool :=
  (0x09 ≤ u && u ≤ 0x0D) || u == 0x20 || u == 0xA0 || u == 0x1680
    || (0x2000 ≤ u && u ≤ 0x200A) || u == 0x2028 || u == 0x2029 || u == 0x202F
    || u == 0x205F || u == 0x3000 || u == 0xFEFF

end CodeUnit

namespace Text

/-! ## Characters -/

/-- The one or two units of a character. -/
def ofChar (c : Char) : Text :=
  let n := c.toNat
  if n < 0x10000 then [UInt16.ofNat n]
  else
    let offset := n - 0x10000
    [UInt16.ofNat (0xD800 + offset / 0x400), UInt16.ofNat (0xDC00 + offset % 0x400)]

/-- The units of a sequence of characters. -/
def ofChars (cs : List Char) : Text := cs.flatMap ofChar

/-- The units of a string. -/
def ofString (s : String) : Text := ofChars s.toList

instance : Coe String Text := ⟨ofString⟩

/-- The character that a high and a low surrogate form. -/
def charOfPair (high low : CodeUnit) : Char :=
  Char.ofNat (0x10000 + (high.toNat - 0xD800) * 0x400 + (low.toNat - 0xDC00))

/-- A unit outside a pair: a character of its own, or an unpaired surrogate. -/
def scalarOfUnit (u : CodeUnit) : Except CodeUnit Char :=
  if u.isHighSurrogate || u.isLowSurrogate then .error u else .ok (Char.ofNat u.toNat)

/-- The characters of a text, and its unpaired surrogates where they stand. -/
def scalars : Text → List (Except CodeUnit Char)
  | [] => []
  | [u] => [scalarOfUnit u]
  | u :: v :: rest =>
    if u.isHighSurrogate && v.isLowSurrogate then .ok (charOfPair u v) :: scalars rest
    else scalarOfUnit u :: scalars (v :: rest)

/-- U+FFFD, which stands for what cannot be read. -/
def replacement : Char := '\ufffd'

/-- The characters of a text, with the replacement character for unpaired surrogates. -/
def characters (t : Text) : List Char :=
  t.scalars.map fun
    | .ok c => c
    | .error _ => replacement

/-! ## Cutting and joining -/

/-- The lines of a text. LF ends a line and so does CR LF; a CR elsewhere is part of its line. There
is always at least one line. -/
def lines : Text → List Text
  | [] => [[]]
  | u :: rest =>
    if u == CodeUnit.lineFeed then [] :: lines rest
    else if u == CodeUnit.carriageReturn && rest.head? == some CodeUnit.lineFeed then lines rest
    else (lines rest).modifyHead (u :: ·)

/-- The pieces with LF between them. -/
def joinLines (pieces : List Text) : Text := List.intercalate [CodeUnit.lineFeed] pieces

/-- The text with LF after it. -/
def endLine (t : Text) : Text := t ++ [CodeUnit.lineFeed]

/-- Whether `part` occurs somewhere in the text. -/
def contains (t part : Text) : Bool :=
  match t with
  | [] => part.isEmpty
  | _ :: rest => part.isPrefixOf t || contains rest part

/-- The text without the white space at its end. -/
def trimEnd (t : Text) : Text := (t.reverse.dropWhile CodeUnit.isWhite).reverse

/-- The text without the white space at its start and end. -/
def trim (t : Text) : Text := trimEnd (t.dropWhile CodeUnit.isWhite)

/-- How the language writes a truth value. -/
def ofBool (b : Bool) : Text := if b then "True" else "False"

end Text

end Plume
