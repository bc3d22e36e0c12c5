import Plume.Token.Basic
import Plume.Value.Basic

/-!
# Diagnostics

A diagnostic is a problem at a place. The problem gives the kind under which it is reported and the
wording of the message.
-/

namespace Plume

/-- The longest string or list that an operator may build. -/
def maxSequenceLength : Nat := 10000000

/-- What is wrong with a script or its run. -/
inductive Problem where
  /-- A unit that starts no token. -/
  | illegalCharacter (unit : CodeUnit)
  /-- A quote without another one on its line. -/
  | unterminatedString
  /-- A token that cannot stand where it does. -/
  | unexpectedToken (text : Text) (kind : TokenKind)
  /-- An end of input where the script cannot end. -/
  | unexpectedEnd
  /-- A name that nothing is bound to. -/
  | undefinedName (name : Text)
  /-- Operands to which an arithmetic operator does not apply. -/
  | unsupportedOperands (op : Arithmetic) (left right : TypeName)
  /-- Values that have no order. -/
  | unorderable (op : Relation) (left right : TypeName)
  /-- A range bound that is not an integer. -/
  | notAnInteger (type : TypeName)
  /-- A call with the wrong number of arguments. -/
  | wrongArity (callee : Text) (arity given : Nat)
  /-- A division by zero. -/
  | divisionByZero
  /-- A string or list beyond the greatest length. -/
  | tooLong (length : Nat)
  deriving DecidableEq

/-- The kinds under which problems are reported. -/
inductive ProblemKind where
  | lexical
  | grammatical
  | name
  | type
  | zeroDivision
  | memory
  deriving DecidableEq

/-- How a kind is written. -/
def ProblemKind.label : ProblemKind → Text
  | .lexical => "LexError"
  | .grammatical => "SyntaxError"
  | .name => "NameError"
  | .type => "TypeError"
  | .zeroDivision => "ZeroDivisionError"
  | .memory => "MemoryError"

/-- The kind under which a problem is reported. -/
def Problem.kind : Problem → ProblemKind
  | .illegalCharacter _ | .unterminatedString => .lexical
  | .unexpectedToken .. | .unexpectedEnd => .grammatical
  | .undefinedName _ => .name
  | .unsupportedOperands .. | .unorderable .. | .notAnInteger _ | .wrongArity .. => .type
  | .divisionByZero => .zeroDivision
  | .tooLong _ => .memory

/-- The message for a problem on the given line. -/
def Problem.message (line : Nat) : Problem → Text
  | .illegalCharacter u => "Illegal character '" ++ [u] ++ "'"
  | .unterminatedString => "Unterminated string"
  | .unexpectedToken text kind =>
    "Syntax error at line " ++ Text.ofNat line ++ ", token='" ++ text ++ "' (type='" ++ kind.label
      ++ "')"
  | .unexpectedEnd => "Syntax error at end of input"
  | .undefinedName name => "name '" ++ name ++ "' is not defined"
  | .unsupportedOperands op left right =>
    "unsupported operand type(s) for " ++ op.symbol ++ ": '" ++ left.text ++ "' and '" ++ right.text
      ++ "'"
  | .unorderable op left right =>
    "'" ++ op.symbol ++ "' not supported between instances of '" ++ left.text ++ "' and '"
      ++ right.text ++ "'"
  | .notAnInteger type => "'" ++ type.text ++ "' object cannot be interpreted as an integer"
  | .wrongArity callee arity given =>
    callee ++ "() takes exactly " ++ Text.ofNat arity ++ " argument"
      ++ (if arity = 1 then "" else "s" : Text) ++ " (" ++ Text.ofNat given ++ " given)"
  | .divisionByZero => "division by zero"
  | .tooLong length =>
    "sequence length " ++ Text.ofNat length ++ " exceeds " ++ Text.ofNat maxSequenceLength

/-- A problem and where it was met. -/
structure Diagnostic where
  problem : Problem
  position : Position
  deriving DecidableEq

namespace Diagnostic

/-- One line for a message of the given kind at the given place. -/
def format (kind message : Text) (position : Position) : Text :=
  kind ++ " at " ++ Text.ofNat position.line ++ ":" ++ Text.ofNat position.column ++ ": " ++ message

/-- The message of a diagnostic. -/
def message (d : Diagnostic) : Text := d.problem.message d.position.line

/-- A diagnostic as one line. -/
def text (d : Diagnostic) : Text := format d.problem.kind.label d.message d.position

end Diagnostic

/-- The diagnostic for a token that cannot stand where it does. -/
def Token.unexpected (t : Token) : Diagnostic :=
  match t.kind with
  | .endOfInput => ⟨.unexpectedEnd, t.span.start⟩
  | kind => ⟨.unexpectedToken t.text kind, t.span.start⟩

end Plume
