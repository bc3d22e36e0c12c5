import Plume.Diagnostic

/-!
# Ends of a run

A run that meets a problem ends with a diagnostic. A fault is an end without one, and a run may also
use up the fuel that bounds its loops.
-/

namespace Plume

/-- What a run cannot go on after, and reports by no diagnostic. -/
inductive Fault where
  /-- The empty string times a count that no float can hold. -/
  | countTooLarge
  /-- A list repeated that has more items than the stack has room for. -/
  | stackExceeded
  /-- A statement where an expression is evaluated. -/
  | misplacedStatement
  deriving DecidableEq

/-- The message of a fault. -/
def Fault.message : Fault → Text
  | .countTooLarge => "Invalid count value: Infinity"
  | .stackExceeded => "Maximum call stack size exceeded"
  | .misplacedStatement => "Unhandled AST node: [object Object]"

/-- An end of a run without a result. -/
inductive Abort where
  | fault (f : Fault)
  | outOfFuel
  deriving DecidableEq

/-- Why an operation has no value: a problem, of type `α`, or a fault. -/
inductive Stop (α : Type) where
  | problem (p : α)
  | fault (f : Fault)
  deriving DecidableEq

/-- The stop with its problem, if it is one, placed in the source. -/
def Stop.located (position : Position) : Stop Problem → Stop Diagnostic
  | .problem p => .problem ⟨p, position⟩
  | .fault f => .fault f

end Plume
