import Plume.Tree.Basic

/-!
# Trees as indented outlines

Each node is a line, and what belongs to it stands below it, two spaces deeper for each level.
-/

namespace Plume.Tree

/-- A line at the given depth. -/
def outlineLine (depth : Nat) (text : Text) : Text := repeated depth ("  " : Text) ++ text

mutual

/-- The lines of a tree at the given depth. -/
def outline (depth : Nat) : Tree → List Text
  | .number _ value => [outlineLine depth ("Number(" ++ value.text ++ ")")]
  | .boolean _ value => [outlineLine depth ("Boolean(" ++ Text.ofBool value ++ ")")]
  | .string _ value => [outlineLine depth ("String(" ++ value ++ ")")]
  | .reference _ name => [outlineLine depth ("Variable(" ++ name ++ ")")]
  | .binary _ op left right =>
    outlineLine depth ("BinOp(op='" ++ op.symbol ++ "')")
      :: outline (depth + 1) left ++ outline (depth + 1) right
  | .list _ items => outlineLine depth "List:" :: outlineAll (depth + 1) items
  | .call _ callee arguments =>
    outlineLine depth ("FunctionCall(" ++ callee.name ++ "):")
      :: outlineLine (depth + 1) "Args:" :: outlineAll (depth + 2) arguments
  | .block _ statements => outlineLine depth "Block:" :: outlineAll (depth + 1) statements
  | .assign _ target value =>
    outlineLine depth "Assignment:"
      :: outlineLine (depth + 1) ("Variable(" ++ target.name ++ ")") :: outline (depth + 1) value
  | .ifThen _ condition body =>
    outlineLine depth "If:"
      :: outlineLine (depth + 1) "Condition:" :: outline (depth + 2) condition
      ++ outlineLine (depth + 1) "Body:" :: outline (depth + 2) body
  | .ifElse _ condition body otherwise =>
    outlineLine depth "If:"
      :: outlineLine (depth + 1) "Condition:" :: outline (depth + 2) condition
      ++ outlineLine (depth + 1) "Body:" :: outline (depth + 2) body
      ++ outlineLine (depth + 1) "Else:" :: outline (depth + 2) otherwise
  | .forRange _ iterator first stop body =>
    outlineLine depth "For:"
      :: outlineLine (depth + 1) ("Iterator: " ++ iterator.name)
      :: outlineLine (depth + 1) "Range Start:" :: outline (depth + 2) first
      ++ outlineLine (depth + 1) "Range End:" :: outline (depth + 2) stop
      ++ outlineLine (depth + 1) "Body:" :: outline (depth + 2) body
  | .whileLoop _ condition body =>
    outlineLine depth "While:"
      :: outlineLine (depth + 1) "Condition:" :: outline (depth + 2) condition
      ++ outlineLine (depth + 1) "Body:" :: outline (depth + 2) body
  | .print _ argument => outlineLine depth "Print:" :: outline (depth + 1) argument

/-- The lines of several trees at the given depth. -/
def outlineAll (depth : Nat) : List Tree → List Text
  | [] => []
  | t :: rest => outline depth t ++ outlineAll depth rest

end

/-- The outline of a tree as one text. -/
def text (t : Tree) : Text := Text.joinLines (outline 0 t)

end Plume.Tree
