import Plume.Diagnostic

/-!
# From source text to tokens

A line is read from left to right. What starts at a unit depends on that unit and the rest of the
line: a blank, a token of some length, or a problem. After a problem the scanner goes on with the
next unit, so a source gives all its tokens and all its problems.
-/

namespace Plume

namespace Token

/-- What starts at some place of a line. -/
inductive Start where
  /-- A space or a tab. -/
  | blank
  /-- A token of `length` units. -/
  | token (kind : TokenKind) (length : Nat)
  /-- A unit with which nothing can be done. -/
  | problem (problem : Problem)

/-- A number: digits and, if a point and a digit follow them, a fraction. -/
def startNumber (rest : Text) : Start :=
  let whole := rest.takeWhile CodeUnit.isDigit
  match rest.drop whole.length with
  | point :: after =>
    let fraction := after.takeWhile CodeUnit.isDigit
    if point == 0x2E && !fraction.isEmpty then
      .token (.number (.ofDigits whole (some fraction))) (whole.length + 1 + fraction.length)
    else .token (.number (.ofDigits whole none)) whole.length
  | [] => .token (.number (.ofDigits whole none)) whole.length

/-- The quote, which opens and closes a string. -/
def quote : CodeUnit := 0x22

/-- What starts at the unit `u` with `rest` behind it on its line. -/
def startAt (u : CodeUnit) (rest : Text) : Start :=
  if u.isSpaceOrTab then .blank
  else if u.isLetter then
    let word := (u :: rest).takeWhile CodeUnit.isNameUnit
    .token (.ofWord word) word.length
  else if u.isDigit then startNumber (u :: rest)
  else if u == quote then
    let content := rest.takeWhile (· != quote)
    if content.length < rest.length then .token (.string content) (content.length + 2)
    else .problem .unterminatedString
  else
    match TokenKind.marks.find? (·.1.isPrefixOf (u :: rest)) with
    | some (text, kind) => .token kind text.length
    | none => .problem (.illegalCharacter u)

/-- The tokens and the problems of a line in order. The line is read from the given column on, after
`skip` units that belong to the token before. -/
def scanLine (line : Nat) (column skip : Nat) : Text → List (Except Diagnostic Token)
  | [] => []
  | u :: rest =>
    match skip with
    | n + 1 => scanLine line (column + 1) n rest
    | 0 =>
      match startAt u rest with
      | .blank => scanLine line (column + 1) 0 rest
      | .token kind length =>
        .ok ⟨kind, (u :: rest).take length, ⟨⟨line, column⟩, ⟨line, column + length⟩⟩⟩
          :: scanLine line (column + 1) (length - 1) rest
      | .problem problem => .error ⟨problem, ⟨line, column⟩⟩ :: scanLine line (column + 1) 0 rest

/-- The tokens and the problems of the lines from line `line` on, and the token for the end of input
behind the last line. -/
def scanLines (line : Nat) : List Text → List (Except Diagnostic Token)
  | [] => []
  | [last] =>
    let stop : Position := ⟨line, last.length + 1⟩
    scanLine line 1 0 last ++ [.ok ⟨.endOfInput, [], ⟨stop, stop⟩⟩]
  | first :: rest => scanLine line 1 0 first ++ scanLines (line + 1) rest

/-- The tokens and the problems of a source in order. -/
def scan (source : Text) : List (Except Diagnostic Token) := scanLines 1 source.lines

end Token

/-- What a source consists of: its tokens, and its problems apart from them. -/
structure Scanned where
  tokens : List Token
  errors : List Diagnostic

/-- The tokens of a source, the end of input last, and the problems met among them. -/
def tokenize (source : Text) : Scanned :=
  let items := Token.scan source
  ⟨items.filterMap Except.toOption,
    items.filterMap fun
      | .ok _ => none
      | .error d => some d⟩

end Plume
