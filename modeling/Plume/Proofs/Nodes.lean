import Plume.Tree.Basic

/-!
# Nodes of trees

The nodes of a tree are the tree itself and the nodes of its parts, as a relation (`IsNode`) and as
a list (`nodes`).
-/

namespace Plume.Tree

/-- The trees that a tree is put together from. -/
def parts : Tree → List Tree
  | .number .. | .boolean .. | .string .. | .reference .. => []
  | .binary _ _ left right => [left, right]
  | .list _ items => items
  | .call _ _ arguments => arguments
  | .block _ statements => statements
  | .assign _ _ value => [value]
  | .ifThen _ condition body => [condition, body]
  | .ifElse _ condition body otherwise => [condition, body, otherwise]
  | .forRange _ _ first stop body => [first, stop, body]
  | .whileLoop _ condition body => [condition, body]
  | .print _ argument => [argument]

/-- A node of a tree is the tree itself or a node of one of its parts. -/
inductive IsNode (n : Tree) : Tree → Prop
  | self : IsNode n n
  | part {t c : Tree} : c ∈ t.parts → IsNode n c → IsNode n t

theorem IsNode.trans {m n t : Tree} (hm : IsNode m n) (hn : IsNode n t) : IsNode m t := by
  induction hn with
  | self => exact hm
  | part hc _ ih => exact .part hc ih

mutual

/-- The nodes of a tree. -/
def nodes : Tree → List Tree
  | .number span value => [.number span value]
  | .boolean span value => [.boolean span value]
  | .string span value => [.string span value]
  | .reference span name => [.reference span name]
  | .binary span op left right => .binary span op left right :: (nodes left ++ nodes right)
  | .list span items => .list span items :: nodesAll items
  | .call span callee arguments => .call span callee arguments :: nodesAll arguments
  | .block span statements => .block span statements :: nodesAll statements
  | .assign span target value => .assign span target value :: nodes value
  | .ifThen span condition body => .ifThen span condition body :: (nodes condition ++ nodes body)
  | .ifElse span condition body otherwise =>
    .ifElse span condition body otherwise
      :: (nodes condition ++ nodes body ++ nodes otherwise)
  | .forRange span iterator first stop body =>
    .forRange span iterator first stop body :: (nodes first ++ nodes stop ++ nodes body)
  | .whileLoop span condition body =>
    .whileLoop span condition body :: (nodes condition ++ nodes body)
  | .print span argument => .print span argument :: nodes argument

/-- The nodes of several trees. -/
def nodesAll : List Tree → List Tree
  | [] => []
  | t :: rest => nodes t ++ nodesAll rest

end

theorem mem_nodesAll {n : Tree} {ts : List Tree} : n ∈ nodesAll ts ↔ ∃ t ∈ ts, n ∈ t.nodes := by
  induction ts with
  | nil => simp [nodesAll]
  | cons t rest ih => simp [nodesAll, ih]

/-- The nodes of a tree are the tree and those of its parts. -/
theorem mem_nodes {n t : Tree} : n ∈ t.nodes ↔ n = t ∨ ∃ c ∈ t.parts, n ∈ c.nodes := by
  cases t <;> simp [nodes, parts, mem_nodesAll]

theorem nodes_subset_of_part {t c : Tree} (h : c ∈ t.parts) : c.nodes ⊆ t.nodes :=
  fun _ hn => mem_nodes.mpr (.inr ⟨c, h, hn⟩)

theorem nodes_eq (t : Tree) : t.nodes = t :: nodesAll t.parts := by
  cases t <;> simp [nodes, parts, nodesAll]

/-- A tree among others has no more nodes than they have. -/
theorem length_nodes_le_of_mem {c : Tree} {ts : List Tree} (h : c ∈ ts) :
    c.nodes.length ≤ (nodesAll ts).length := by
  induction ts with
  | nil => exact absurd h List.not_mem_nil
  | cons t rest ih =>
    rw [nodesAll, List.length_append]
    rcases List.mem_cons.mp h with rfl | hrest
    · exact Nat.le_add_right ..
    · exact Nat.le_trans (ih hrest) (Nat.le_add_left ..)

/-- A part of a tree has fewer nodes than the tree. -/
theorem length_nodes_lt_of_part {t c : Tree} (h : c ∈ t.parts) :
    c.nodes.length < t.nodes.length := by
  rw [nodes_eq t, List.length_cons]
  exact Nat.lt_succ_of_le (length_nodes_le_of_mem h)

end Plume.Tree
