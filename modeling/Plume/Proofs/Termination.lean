import Mathlib.Data.Prod.Lex
import Mathlib.Logic.Hydra
import Plume.Proofs.Binding

/-!
# Programs without `while` loops

A run of a program without `while` loops comes to an end, whatever its loops over ranges do to their
iterators and to the names that their ends were calculated from (`Program.ends_of_whileFree`).

## Shape of the proof

How often a loop over a range goes round is not to be seen in the program: it is settled when the
loop is entered, and can be any number. So there is no bound on the steps that could be counted down
from the start. But each step takes one task away from the machine and puts others in its place that
are lighter: a part of the tree that was to be run, or the same loop with fewer rounds to go
(`Task.weight_lt_of_step`). Like the heads of a hydra that grow back smaller, tasks cannot be
replaced in this way for ever (`Machine.exists_ends`).
-/

section

open Relation (CutExpand cutExpand_add_right cutExpand_singleton)

namespace Plume

namespace Tree

/-- Whether a node is a `while` loop. -/
def isWhile : Tree → Bool
  | .whileLoop .. => true
  | _ => false

end Tree

namespace Task

variable {builtins : Builtins}

/-- How heavy a task is: first by the nodes of the tree that it runs, then by the rounds to go. -/
def weight : Task → Nat ×ₗ Nat
  | .run t => toLex (t.nodes.length, 0)
  | .rounds _ body count _ => toLex (body.nodes.length, count + 1)
  | .forget => toLex (0, 0)

/-- A task for a part of a tree is lighter than the run of the tree, with any number of rounds. -/
theorem toLex_lt_weight_run {t c : Tree} (h : c ∈ t.parts) (count : Nat) :
    toLex (c.nodes.length, count) < (Task.run t).weight :=
  Prod.Lex.toLex_lt_toLex.mpr (.inl (Tree.length_nodes_lt_of_part h))

/-- Forgetting a value weighs less than running anything. -/
theorem weight_forget_lt (t : Tree) : Task.forget.weight < (Task.run t).weight := by
  refine Prod.Lex.toLex_lt_toLex.mpr (.inl ?_)
  rw [Tree.nodes_eq t, List.length_cons]
  exact Nat.succ_pos _

/-- A step leaves nothing to do but lighter tasks, unless it is one of a `while` loop. -/
theorem weight_lt_of_step {task : Task} {s : State} {m : Machine}
    (hwhile : ∀ t, task = .run t → t.isWhile = false) (h : task.step builtins s = .ok m) :
    ∀ next ∈ m.tasks, next.weight < task.weight := by
  cases task with
  | forget =>
    cases h
    simp
  | rounds iterator body count i =>
    cases count with
    | zero =>
      cases h
      simp
    | succ count =>
      cases h
      -- the tree stays the same here, and only the rounds to go become fewer
      have hbody : (Task.run body).weight < (Task.rounds iterator body (count + 1) i).weight :=
        Prod.Lex.toLex_lt_toLex.mpr (.inr ⟨rfl, Nat.succ_pos _⟩)
      have hrounds : (Task.rounds iterator body count (i + 1)).weight
          < (Task.rounds iterator body (count + 1) i).weight :=
        Prod.Lex.toLex_lt_toLex.mpr (.inr ⟨rfl, Nat.lt_succ_self _⟩)
      simpa using ⟨hbody, hrounds⟩
  | run t =>
    cases t with
    | block span statements =>
      cases h
      intro next hnext
      rcases List.mem_append.mp hnext with hrun | hforget
      · obtain ⟨c, hc, rfl⟩ := List.mem_map.mp hrun
        exact toLex_lt_weight_run hc 0
      · rw [List.mem_singleton.mp hforget]
        exact weight_forget_lt _
    | ifThen span condition body =>
      obtain ⟨holds, -, rfl⟩ := map_eq_ok.mp h
      have hbody := @toLex_lt_weight_run (.ifThen span condition body) body (by simp [Tree.parts]) 0
      by_cases hholds : holds
      · simpa [hholds] using ⟨hbody, weight_forget_lt _⟩
      · simp [hholds]
    | ifElse span condition body otherwise =>
      obtain ⟨holds, -, rfl⟩ := map_eq_ok.mp h
      have hpart : ∀ c, c = body ∨ c = otherwise →
          (Task.run c).weight < (Task.run (.ifElse span condition body otherwise)).weight := by
        intro c hc
        apply toLex_lt_weight_run
        simp [Tree.parts, hc]
      have hchosen := hpart (if holds then body else otherwise) (by by_cases holds <;> simp [*])
      simpa using ⟨hchosen, weight_forget_lt _⟩
    | forRange span iterator first stop body =>
      obtain ⟨range, -, rfl⟩ := map_eq_ok.mp h
      intro next hnext
      rw [List.mem_singleton.mp hnext]
      exact toLex_lt_weight_run (by simp [Tree.parts]) _
    | whileLoop span condition body => exact absurd (hwhile _ rfl) (by simp [Tree.isWhile])
    | assign span target value =>
      obtain ⟨v, -, rfl⟩ := map_eq_ok.mp h
      simp
    | print span argument =>
      obtain ⟨v, -, rfl⟩ := map_eq_ok.mp h
      simp
    | number | boolean | string | reference | binary | list | call =>
      rw [step_of_isStatement_eq_false rfl] at h
      obtain ⟨v, -, rfl⟩ := map_eq_ok.mp h
      simp

end Task

namespace Machine

variable {builtins : Builtins} {t : Tree}

/-- The weights of all that is left to do. -/
def weights (m : Machine) : Multiset (Nat ×ₗ Nat) := m.tasks.map Task.weight

/-- A step cuts off the weight of one task, and lighter ones grow back. -/
theorem cutExpand_of_step {task : Task} {rest : List Task} {reached : Progress} {m : Machine}
    (hwhile : ∀ t, task = .run t → t.isWhile = false)
    (h : step builtins ⟨task :: rest, reached⟩ = .ok m) :
    CutExpand (· < ·) m.weights (weights ⟨task :: rest, reached⟩) := by
  obtain ⟨next, hnext, rfl⟩ := map_eq_ok.mp h
  have hsplit : (next.before rest).weights = next.weights + weights ⟨rest, reached⟩ := by
    simp [weights, before]
  rw [hsplit]
  refine (cutExpand_add_right _).mpr (cutExpand_singleton ?_)
  intro w hw
  obtain ⟨task', htask', rfl⟩ : ∃ task' ∈ next.tasks, task'.weight = w := by
    simpa [weights] using hw
  exact Task.weight_lt_of_step hwhile hnext task' htask'

/-- A machine whose tasks are found in a tree without `while` loops comes to an end. -/
theorem exists_ends (hfree : ∀ n, Tree.IsNode n t → n.isWhile = false) (m : Machine)
    (hm : ∀ task ∈ m.tasks, task.Within t) : ∃ x, m.Ends builtins x := by
  -- the weights do not depend on the state, so it may be any that the step before has left
  induction hweights : m.weights using
    (wellFounded_lt (α := Nat ×ₗ Nat)).cutExpand.induction generalizing m with
  | _ weights ih =>
  subst hweights
  obtain ⟨tasks, reached⟩ := m
  cases tasks with
  | nil => exact ⟨.ok reached, 0, rfl⟩
  | cons task rest =>
    cases hstep : step builtins ⟨task :: rest, reached⟩ with
    | error h =>
      refine ⟨.error h, 1, ?_⟩
      rw [after, hstep]
      rfl
    | ok m' =>
      have hwhile : ∀ n, task = .run n → n.isWhile = false := by
        rintro n rfl
        cases hm (.run n) List.mem_cons_self with
        | run hn => exact hfree n hn
      have hwithin : ∀ task ∈ m'.tasks, task.Within t := by
        rcases stepOf_of_step hm hstep with rfl | hstepOf
        · exact hm
        · exact hstepOf.tasks
      obtain ⟨x, n, hn⟩ := ih m'.weights (cutExpand_of_step hwhile hstep) m' hwithin rfl
      refine ⟨x, n + 1, ?_⟩
      rw [after, hstep]
      exact hn

end Machine

namespace Program

variable {p : Program}

/-- A run of a program without `while` loops ends, in every environment and with all functions: the
machine that makes it step by step gets to the end, and the run returns a result, with or without a
diagnostic, or it faults. -/
theorem ends_of_whileFree (hfree : ∀ n, Tree.IsNode n p.toTree → n.isWhile = false)
    (builtins : Builtins) (env : Environment) :
    ∃ x, (p.machine env).Ends builtins x
      ∧ ((∃ r, resultOf x = .ok r ∧ p.Returns builtins env r)
        ∨ ∃ f fuel, resultOf x = .error (.fault f)
          ∧ p.run fuel builtins env = .error (.fault f)) := by
  have hstart : ∀ task ∈ (p.machine env).tasks, task.Within p.toTree :=
    @within_of_after p builtins env 0 _ rfl
  obtain ⟨x, hx⟩ := @Machine.exists_ends builtins p.toTree hfree (p.machine env) hstart
  obtain ⟨⟨fuel, hexec⟩, hfuel⟩ := ends_iff_execAll.mp hx
  have hrun : p.run fuel builtins env = resultOf x := by rw [run_eq_resultOf, hexec]
  refine ⟨x, hx, ?_⟩
  rcases x with ⟨(f | _) | d, s⟩ | reached
  · exact .inr ⟨f, fuel, rfl, hrun⟩
  · exact absurd rfl (hfuel s)
  · exact .inl ⟨_, rfl, fuel, hrun⟩
  · exact .inl ⟨_, rfl, fuel, hrun⟩

/-- `for i in range(0, n): (n = n + 2; for j in range(i, n): (i = 0; j = n)); print(n)`, with the
places left out. -/
def nestedLoops : Program :=
  let here : Span := ⟨⟨1, 1⟩, ⟨1, 1⟩⟩
  let name (x : Text) : Tree := .reference here x
  let number (n : Int) : Tree := .number here (.int n)
  let inner : Tree := .forRange here ⟨here, "j"⟩ (name "i") (name "n")
    (.block here [.assign here ⟨here, "i"⟩ (number 0), .assign here ⟨here, "j"⟩ (name "n")])
  let longer : Tree := .assign here ⟨here, "n"⟩
    (.binary here (.arithmetic .add) (name "n") (number 2))
  ⟨here, [.forRange here ⟨here, "i"⟩ (number 0) (name "n") (.block here [longer, inner]),
    .print here (name "n")]⟩

theorem ends_of_whileFree_nestedLoops :
    (∀ n, Tree.IsNode n nestedLoops.toTree → n.isWhile = false)
      ∧ ∃ x r, (nestedLoops.machine (.ofList [("n", .int 3)])).Ends .standard x
        ∧ resultOf x = .ok r ∧ r.output = "9\n" := by
  have hnodes : ∀ n ∈ nestedLoops.toTree.nodes, n.isWhile = false := by decide +kernel
  have hfree := fun n (hn : Tree.IsNode n nestedLoops.toTree) => hnodes n hn.mem_nodes
  have hrun : nestedLoops.run 0 .standard (.ofList [("n", .int 3)]) = .ok _ := rfl
  refine ⟨hfree, ?_⟩
  rcases ends_of_whileFree hfree .standard (.ofList [("n", .int 3)]) with
    ⟨x, hx, ⟨r, hr, hreturns⟩ | ⟨f, fuel, -, hfault⟩⟩
  · refine ⟨x, r, hx, hr, ?_⟩
    rw [hreturns.unique ⟨0, hrun⟩]
    decide +kernel
  · rw [run_mono (Nat.zero_le fuel) hrun] at hfault
    cases hfault

end Program

end Plume

end
