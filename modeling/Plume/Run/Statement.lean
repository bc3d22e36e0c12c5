import Plume.Run.Expression

/-!
# Runs

A statement takes a state to the next, and gives a value if it is an expression or an assignment. A
`while` loop has no bound of its own, so `fuel` bounds it: each loop tests its condition at most
`fuel` times. All else ends by itself.
-/

namespace Plume

/-- What a run has done so far: the names it has bound, and the texts it has printed. -/
structure State where
  environment : Environment
  printed : Array Text

/-- Why a run halts before its end, and the state that it has reached. -/
structure Halt where
  cause : Except Abort Diagnostic
  state : State

/-- The state after a statement, and the value of the statement if it has one. -/
structure Progress where
  state : State
  value : Option Value

namespace State

/-- The state before a run. -/
def start (env : Environment) : State := ⟨env, #[]⟩

/-- All that has been printed. -/
def output (s : State) : Text := s.printed.toList.flatten

/-- Binds a name. -/
def bind (s : State) (name : Text) (value : Value) : State :=
  { s with environment := s.environment.insert name value }

/-- Prints a value on a line of its own. -/
def print (s : State) (value : Value) : State :=
  { s with printed := s.printed.push value.text.endLine }

/-- Halts where an expression has stopped. -/
def halt (s : State) : Stop Diagnostic → Halt
  | .problem d => ⟨.ok d, s⟩
  | .fault f => ⟨.error (.fault f), s⟩

/-- The value of an expression in a state. -/
def eval (builtins : Builtins) (s : State) (e : Tree) : Except Halt Value :=
  (e.eval builtins s.environment).mapError s.halt

/-- Whether a condition holds in a state. -/
def test (builtins : Builtins) (s : State) (condition : Tree) : Except Halt Bool :=
  (·.isTruthy) <$> s.eval builtins condition

/-- The value of a range bound in a state. -/
def bound (builtins : Builtins) (s : State) (e : Tree) : Except Halt Int := do
  let v ← s.eval builtins e
  match v.integer? with
  | some n => .ok n
  | none => .error ⟨.ok ⟨.notAnInteger v.typeName, e.span.start⟩, s⟩

end State

/-- Runs a body for `count` integers in a row, the first being `i`. -/
def forEach (body : Int → State → Except Halt State) : Nat → Int → State → Except Halt State
  | 0, _, s => .ok s
  | count + 1, i, s => do forEach body count (i + 1) (← body i s)

/-- Runs a body as long as a condition holds, for at most `fuel` tests of it. -/
def repeatWhile (test : State → Except Halt Bool) (body : State → Except Halt State) :
    Nat → State → Except Halt State
  | 0, s => .error ⟨.error .outOfFuel, s⟩
  | fuel + 1, s => do
    if ← test s then repeatWhile test body fuel (← body s) else return s

namespace Tree

variable (builtins : Builtins) (fuel : Nat)

mutual

/-- Runs a statement. -/
def exec : Tree → State → Except Halt Progress
  | .block _ statements, s => do
    let reached ← execAll statements s none
    return ⟨reached.state, none⟩
  | .assign _ target value, s => do
    let v ← s.eval builtins value
    return ⟨s.bind target.name v, some v⟩
  | .ifThen _ condition body, s => do
    if ← s.test builtins condition then
      let reached ← exec body s
      return ⟨reached.state, none⟩
    else return ⟨s, none⟩
  | .ifElse _ condition body otherwise, s => do
    if ← s.test builtins condition then
      let reached ← exec body s
      return ⟨reached.state, none⟩
    else
      let reached ← exec otherwise s
      return ⟨reached.state, none⟩
  | .forRange _ iterator first stop body, s => do
    let a ← s.bound builtins first
    let z ← s.bound builtins stop
    let once (i : Int) (s : State) : Except Halt State := do
      let reached ← exec body (s.bind iterator.name (.int i))
      return reached.state
    return ⟨← forEach once (z - a).toNat a s, none⟩
  | .whileLoop _ condition body, s => do
    let once (s : State) : Except Halt State := do
      let reached ← exec body s
      return reached.state
    return ⟨← repeatWhile (fun s => s.test builtins condition) once fuel s, none⟩
  | .print _ argument, s => do
    let v ← s.eval builtins argument
    return ⟨s.print v, none⟩
  | expression, s => do
    let v ← s.eval builtins expression
    return ⟨s, some v⟩

/-- Runs statements one after another. The value is that of the last statement, or the given one if
there is none. -/
def execAll : List Tree → State → Option Value → Except Halt Progress
  | [], s, value => .ok ⟨s, value⟩
  | t :: rest, s, _ => do
    let reached ← exec t s
    execAll rest reached.state reached.value

end

end Tree

/-! ## Programs -/

/-- What a run leaves behind. -/
structure RunResult where
  output : Text
  error : Option Diagnostic
  environment : Environment
  value : Option Value

/-- Runs a program in an environment. A run that meets a problem keeps what it had printed and bound
up to there, and has no value. -/
def Program.run (fuel : Nat) (builtins : Builtins) (env : Environment) (p : Program) :
    Except Abort RunResult :=
  match Tree.execAll builtins fuel p.statements (.start env) none with
  | .ok ⟨s, value⟩ => .ok ⟨s.output, none, s.environment, value⟩
  | .error ⟨.ok d, s⟩ => .ok ⟨s.output, some d, s.environment, none⟩
  | .error ⟨.error a, _⟩ => .error a

end Plume
