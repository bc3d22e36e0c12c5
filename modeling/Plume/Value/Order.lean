import Plume.Value.Basic

/-!
# Equality and order of values

Any two values are equal or not. Numbers and truth values are ordered as numbers, strings by their
code units, and lists by the first items that are not equal; other pairs have no order.
-/

namespace Plume

/-- How two values stand to each other. -/
inductive Comparison where
  /-- The values have an order. -/
  | ordered (o : Ordering)
  /-- One of two numbers is NaN. -/
  | unordered
  /-- The values are of types that are not ordered among each other. -/
  | incomparable
  deriving DecidableEq

namespace Value

mutual

/-- Equality: of numbers and truth values as numbers, of strings and lists item by item. -/
def equal : Value → Value → Bool
  | .list xs, .list ys => equalItems xs ys
  | .str s, .str t => s == t
  | a, b =>
    match a.number?, b.number? with
    | some m, some n => m.equal n
    | _, _ => false

/-- Equality of lists. -/
def equalItems : List Value → List Value → Bool
  | [], [] => true
  | x :: xs, y :: ys => equal x y && equalItems xs ys
  | _, _ => false

end

mutual

/-- The order of two values. -/
def compare : Value → Value → Comparison
  | .list xs, .list ys => compareItems xs ys
  | .str s, .str t => .ordered (Ord.compare s t)
  | a, b =>
    match a.number?, b.number? with
    | some m, some n =>
      match m.compare? n with
      | some o => .ordered o
      | none => .unordered
    | _, _ => .incomparable

/-- The order of two lists: that of the first two items that are not equal, or else the shorter list
comes first. -/
def compareItems : List Value → List Value → Comparison
  | [], [] => .ordered .eq
  | [], _ :: _ => .ordered .lt
  | _ :: _, [] => .ordered .gt
  | x :: xs, y :: ys => if x.equal y then compareItems xs ys else compare x y

end

end Value

end Plume
