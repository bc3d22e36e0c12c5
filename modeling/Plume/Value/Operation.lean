import Plume.Fault
import Plume.Value.Order

/-!
# Operators on values

Numbers and truth values are calculated with as numbers. Strings and lists are joined by `+` and
repeated by `*` with an integer on either side, up to `maxSequenceLength`. Each copy of a list puts
all of its items on the stack at once, so that a list of more than `maxStacked` items cannot be
repeated at all.
-/

namespace Plume

/-- The number of items that the stack has room for. How much room there is depends on the size of
the stack and on how deep the evaluation is nested; this is the figure for a stack of the usual size
and little nesting, rounded down. No proof rests on the figure but for the scripts that exceed it by
far. -/
def maxStacked : Nat := 125000

namespace Value

/-- Stops where a string or list would be longer than it may be. -/
def checkLength (length : Nat) : Except (Stop Problem) Unit :=
  if length ≤ maxSequenceLength then .ok () else .error (.problem (.tooLong length))

/-- A string or list times an integer, of which a negative one counts as zero. -/
def times? (count : Int) : Value → Option (Except (Stop Problem) Value)
  | .str t => some do
    checkLength (t.length * count.toNat)
    if 0 < count ∧ (Binary64.ofInt count).isInfinite then .error (.fault .countTooLarge)
    return .str (repeated count.toNat t)
  | .list items => some do
    checkLength (items.length * count.toNat)
    if 0 < count ∧ maxStacked < items.length then .error (.fault .stackExceeded)
    return .list (repeated count.toNat items)
  | _ => none

/-- Two strings or two lists joined. -/
def append? : Value → Value → Option (Except (Stop Problem) Value)
  | .str s, .str t => some do
    checkLength (s.length + t.length)
    return .str (s ++ t)
  | .list xs, .list ys => some do
    checkLength (xs.length + ys.length)
    return .list (xs ++ ys)
  | _, _ => none

/-- What an operator does with strings and lists. In a product the right operand is the count if it
counts as an integer, and else the left one is. -/
def combine? : Arithmetic → Value → Value → Option (Except (Stop Problem) Value)
  | .add, a, b => a.append? b
  | .mul, a, b =>
    match b.integer?, a.integer? with
    | some n, _ => a.times? n
    | none, some n => b.times? n
    | none, none => none
  | _, _, _ => none

/-- The value of an arithmetic operator. -/
def calculate (op : Arithmetic) (a b : Value) : Except (Stop Problem) Value :=
  match a.number?, b.number? with
  | some m, some n =>
    match Number.calculate? op m n with
    | some result => .ok (.number result)
    | none => .error (.problem .divisionByZero)
  | _, _ =>
    (combine? op a b).getD (.error (.problem (.unsupportedOperands op a.typeName b.typeName)))

end Value

/-- Whether an order satisfies a relation. -/
def Relation.holds : Relation → Ordering → Bool
  | .eq, o => o == .eq
  | .ne, o => o != .eq
  | .lt, o => o == .lt
  | .gt, o => o == .gt
  | .le, o => o != .gt
  | .ge, o => o != .lt

namespace Value

/-- The truth of a relation. Any two values can be tested for equality; the other relations need an
order, and all of them fail for a NaN. -/
def relate (op : Relation) (a b : Value) : Except Problem Bool :=
  match op with
  | .eq => .ok (a.equal b)
  | .ne => .ok (!a.equal b)
  | op =>
    match a.compare b with
    | .ordered o => .ok (op.holds o)
    | .unordered => .ok false
    | .incomparable => .error (.unorderable op a.typeName b.typeName)

/-- The value of an operator. -/
def operate (op : Operator) (a b : Value) : Except (Stop Problem) Value :=
  match op with
  | .arithmetic op => calculate op a b
  | .relation op => (relate op a b).map .bool |>.mapError .problem

end Value

end Plume
