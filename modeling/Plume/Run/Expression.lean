import Plume.Run.Environment
import Plume.Tree.Basic
import Plume.Value.Operation

/-!
# Values of expressions

Operands, items and arguments are evaluated from left to right, and the first stop ends the
evaluation. An expression changes nothing.
-/

namespace Plume

/-- The value of a call with the given arguments. -/
def Builtin.apply (f : Builtin) (name : Text) (arguments : List Value) : Except Problem Value :=
  if h : arguments.length = f.arity then .ok (f.call fun i => arguments.get (i.cast h.symm))
  else .error (.wrongArity name f.arity arguments.length)

namespace Tree

variable (builtins : Builtins) (env : Environment)

mutual

/-- The value of an expression. A name of a function is looked up before the arguments are
evaluated, and their number is checked after. -/
def eval : Tree → Except (Stop Diagnostic) Value
  | .number _ n => .ok (.number n)
  | .boolean _ b => .ok (.bool b)
  | .string _ t => .ok (.str t)
  | .reference span name =>
    match env.get? name with
    | some v => .ok v
    | none => .error (.problem ⟨.undefinedName name, span.start⟩)
  | .binary span op left right => do
    let a ← eval left
    let b ← eval right
    (Value.operate op a b).mapError (.located span.start)
  | .list _ items => return .list (← evalAll items)
  | .call span callee arguments =>
    match builtins.get? callee.name with
    | some f => do
      let values ← evalAll arguments
      (f.apply callee.name values).mapError fun p => .problem ⟨p, span.start⟩
    | none => .error (.problem ⟨.undefinedName callee.name, span.start⟩)
  | .block .. | .assign .. | .ifThen .. | .ifElse .. | .forRange .. | .whileLoop .. | .print .. =>
    .error (.fault .misplacedStatement)

/-- The values of several expressions. -/
def evalAll : List Tree → Except (Stop Diagnostic) (List Value)
  | [] => .ok []
  | t :: rest => do
    let v ← eval t
    let vs ← evalAll rest
    return v :: vs

end

end Tree

end Plume
