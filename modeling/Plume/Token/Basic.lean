import Plume.Number.Basic

/-!
# Tokens and their places

Lines and columns of a source text count from one, columns in code units. A span ends at the column
after its last unit.

The kind of a token says what it is and, for literals and names, what it stands for. `keywords` and
`marks` list the tokens of fixed spelling; `marks` puts each mark of two units before those of one.
-/

namespace Plume

/-! ## Places -/

/-- A place in a source text. -/
structure Position where
  line : Nat
  column : Nat
  deriving DecidableEq

/-- The stretch of a source text from `start` up to but not including `stop`. -/
structure Span where
  start : Position
  stop : Position
  deriving DecidableEq

/-- From the start of one span to the end of another. -/
def Span.to (first last : Span) : Span := ⟨first.start, last.stop⟩

/-! ## Kinds of tokens -/

/-- What a token is. -/
inductive TokenKind where
  | number (value : Number)
  | string (value : Text)
  | name (name : Text)
  | wordTrue
  | wordFalse
  | wordFor
  | wordIn
  | wordRange
  | wordWhile
  | wordIf
  | wordElse
  | wordPrint
  | arithmetic (op : Arithmetic)
  | relation (op : Relation)
  | assign
  | openParen
  | closeParen
  | openBracket
  | closeBracket
  | comma
  | colon
  | semicolon
  | endOfInput
  deriving DecidableEq

namespace TokenKind

/-- The label of a kind in diagnostics. -/
def label : TokenKind → Text
  | .number _ => "NUMBER"
  | .string _ => "STRING"
  | .name _ => "IDENTIFIER"
  | .wordTrue => "TRUE"
  | .wordFalse => "FALSE"
  | .wordFor => "FOR"
  | .wordIn => "IN"
  | .wordRange => "RANGE"
  | .wordWhile => "WHILE"
  | .wordIf => "IF"
  | .wordElse => "ELSE"
  | .wordPrint => "PRINT"
  | .arithmetic .add => "PLUS"
  | .arithmetic .sub => "MINUS"
  | .arithmetic .mul => "TIMES"
  | .arithmetic .div => "DIVIDE"
  | .relation .eq => "EQUALS"
  | .relation .ne => "NE"
  | .relation .lt => "LT"
  | .relation .gt => "GT"
  | .relation .le => "LE"
  | .relation .ge => "GE"
  | .assign => "ASSIGN"
  | .openParen => "LPAREN"
  | .closeParen => "RPAREN"
  | .openBracket => "LBRACKET"
  | .closeBracket => "RBRACKET"
  | .comma => "COMMA"
  | .colon => "COLON"
  | .semicolon => "SEMICOLON"
  | .endOfInput => "EOF"

/-- The words that are not names. -/
def keywords : List (Text × TokenKind) :=
  [("for", .wordFor), ("in", .wordIn), ("range", .wordRange), ("while", .wordWhile),
    ("if", .wordIf), ("else", .wordElse), ("print", .wordPrint), ("True", .wordTrue),
    ("False", .wordFalse)]

/-- The operators and the punctuation, the longer marks first. -/
def marks : List (Text × TokenKind) :=
  [("==", .relation .eq), ("!=", .relation .ne), ("<=", .relation .le), (">=", .relation .ge),
    ("+", .arithmetic .add), ("-", .arithmetic .sub), ("*", .arithmetic .mul),
    ("/", .arithmetic .div), ("=", .assign), ("<", .relation .lt), (">", .relation .gt),
    ("(", .openParen), (")", .closeParen), ("[", .openBracket), ("]", .closeBracket),
    (",", .comma), (":", .colon), (";", .semicolon)]

/-- The kind of a word: a keyword, or else a name. -/
def ofWord (word : Text) : TokenKind := (keywords.lookup word).getD (.name word)

end TokenKind

/-- A token: what it is, how it is written, and where it stands. -/
structure Token where
  kind : TokenKind
  text : Text
  span : Span
  deriving DecidableEq

end Plume
