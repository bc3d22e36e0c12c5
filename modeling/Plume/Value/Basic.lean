import Plume.Number.Basic

/-!
# Values

A value is a number, a truth value, a string or a list of values. Truth values take part in
arithmetic as the integers 0 and 1.
-/

namespace Plume

/-- The type of a value, as diagnostics and reports name it. -/
inductive TypeName where
  | int
  | float
  | bool
  | str
  | list
  deriving DecidableEq

/-- How a type is written. -/
def TypeName.text : TypeName → Text
  | .int => "int"
  | .float => "float"
  | .bool => "bool"
  | .str => "str"
  | .list => "list"

/-- A value of the language. -/
inductive Value where
  | number (n : Number)
  | bool (b : Bool)
  | str (t : Text)
  | list (items : List Value)

namespace Value

/-- An integer as a value. -/
def int (n : Int) : Value := .number (.int n)

/-- A float as a value. -/
def float (x : Binary64) : Value := .number (.float x)

/-- The type of a value. -/
def typeName : Value → TypeName
  | .number (.int _) => .int
  | .number (.float _) => .float
  | .bool _ => .bool
  | .str _ => .str
  | .list _ => .list

/-- The integer that a value counts as: integers count as themselves, truth values as 0 and 1. -/
def integer? : Value → Option Int
  | .number (.int n) => some n
  | .bool b => some (if b then 1 else 0)
  | _ => none

/-- The number that a value counts as. -/
def number? : Value → Option Number
  | .number n => some n
  | .bool b => some (.int (if b then 1 else 0))
  | _ => none

/-- Whether a value counts as true: zero, the empty string and the empty list do not. -/
def isTruthy : Value → Bool
  | .number n => !n.isZero
  | .bool b => b
  | .str t => !t.isEmpty
  | .list items => !items.isEmpty

mutual

/-- The text of a value. A string stands between single quotes if `quoted` says so, and always does
as an item of a list. -/
def display (quoted : Bool) : Value → Text
  | .number n => n.text
  | .bool b => Text.ofBool b
  | .str t => if quoted then "'" ++ t ++ "'" else t
  | .list items => "[" ++ List.intercalate ", " (displayItems items) ++ "]"

/-- The texts of the items of a list. -/
def displayItems : List Value → List Text
  | [] => []
  | v :: rest => display true v :: displayItems rest

end

/-- The text of a value as it is printed. -/
def text (v : Value) : Text := display false v

end Value

end Plume
