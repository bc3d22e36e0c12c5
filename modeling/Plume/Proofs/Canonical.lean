import Plume.Tree.Parser

/-!
# Canonical trees

A tree may hold anything in any place. The canonical ones are those that a script can be written
for: expressions stand only where values are wanted, a single statement is not put into a block, a
statement with a body is the last of its sequence, since its body would take whatever follows, and
no `else` has a nearer `if` to go to than its own.
-/

namespace Plume

namespace Tree

/-! ## How a statement ends -/

/-- Whether a statement has a body. -/
def isCompound : Tree → Bool
  | .ifThen .. | .ifElse .. | .forRange .. | .whileLoop .. => true
  | _ => false

mutual

/-- Whether a statement ends, through last statements, loop bodies and `else` bodies, in an `if`
without `else`. An `else` behind it would go to that `if`. -/
def endsOpen : Tree → Bool
  | .ifThen .. => true
  | .ifElse _ _ _ otherwise => endsOpen otherwise
  | .forRange _ _ _ _ body => endsOpen body
  | .whileLoop _ _ body => endsOpen body
  | .block _ statements => lastEndsOpen statements
  | _ => false

/-- Whether the last of some statements ends in an `if` without `else`. -/
def lastEndsOpen : List Tree → Bool
  | [] => false
  | [last] => endsOpen last
  | _ :: rest => lastEndsOpen rest

end

/-- A sequence ends as its last statement does. -/
theorem lastEndsOpen_append_singleton (before : List Tree) (last : Tree) :
    lastEndsOpen (before ++ [last]) = endsOpen last := by
  induction before with
  | nil => rw [List.nil_append, lastEndsOpen]
  | cons first rest ih =>
    cases hrest : rest ++ [last] with
    | nil => simp at hrest
    | cons next more =>
      rw [List.cons_append, hrest, lastEndsOpen, ← hrest]
      · exact ih
      · simp

/-- What has no body cannot take an `else`. -/
theorem endsOpen_eq_false {s : Tree} (hcompound : s.isCompound = false)
    (hblock : ∀ span statements, s ≠ .block span statements) : s.endsOpen = false := by
  cases s <;> simp_all [isCompound, endsOpen]

/-! ## Canonical forms -/

/-- Literals, names, calls and arithmetic over expressions. -/
inductive IsExpression : Tree → Prop
  | number (span : Span) (value : Number) : IsExpression (.number span value)
  | boolean (span : Span) (value : Bool) : IsExpression (.boolean span value)
  | string (span : Span) (value : Text) : IsExpression (.string span value)
  | reference (span : Span) (name : Text) : IsExpression (.reference span name)
  | call (span : Span) (callee : Ident) {arguments : List Tree} :
      (∀ a ∈ arguments, IsExpression a) → IsExpression (.call span callee arguments)
  | binary (span : Span) (op : Arithmetic) {left right : Tree} :
      IsExpression left → IsExpression right →
        IsExpression (.binary span (.arithmetic op) left right)

/-- Two expressions that are compared. -/
inductive IsCondition : Tree → Prop
  | compare (span : Span) (op : Relation) {left right : Tree} :
      IsExpression left → IsExpression right →
        IsCondition (.binary span (.relation op) left right)

mutual

/-- A statement, other than a block, with nothing but canonical parts. -/
inductive IsStatement : Tree → Prop
  | expression {e : Tree} : IsExpression e → IsStatement e
  | assign (span : Span) (target : Ident) {value : Tree} :
      IsExpression value → IsStatement (.assign span target value)
  | assignList (span listSpan : Span) (target : Ident) {items : List Tree} :
      (∀ i ∈ items, IsExpression i) → IsStatement (.assign span target (.list listSpan items))
  | ifThen (span : Span) {condition body : Tree} :
      IsCondition condition → IsBody body → IsStatement (.ifThen span condition body)
  | ifElse (span : Span) {condition body otherwise : Tree} :
      IsCondition condition → IsBody body → body.endsOpen = false → IsBody otherwise →
        IsStatement (.ifElse span condition body otherwise)
  | forRange (span : Span) (iterator : Ident) {first stop body : Tree} :
      IsExpression first → IsExpression stop → IsBody body →
        IsStatement (.forRange span iterator first stop body)
  | whileLoop (span : Span) {condition body : Tree} :
      IsCondition condition → IsBody body → IsStatement (.whileLoop span condition body)
  | print (span : Span) {argument : Tree} :
      IsExpression argument → IsStatement (.print span argument)

/-- A single statement, or a block of two or more of which only the last may have a body. -/
inductive IsBody : Tree → Prop
  | single {s : Tree} : IsStatement s → IsBody s
  | block (span : Span) {statements : List Tree} :
      2 ≤ statements.length → (∀ s ∈ statements, IsStatement s) →
        (∀ s ∈ statements.dropLast, s.isCompound = false) → IsBody (.block span statements)

end

/-- A block is a body, never a statement. -/
theorem IsStatement.ne_block {s : Tree} (h : IsStatement s) (span : Span) (statements : List Tree) :
    s ≠ .block span statements := by
  rintro rfl
  cases h with
  | expression he => cases he

/-- A statement without a body. -/
structure IsSimple (s : Tree) : Prop where
  statement : IsStatement s
  notCompound : s.isCompound = false

theorem IsSimple.endsOpen {s : Tree} (h : IsSimple s) : s.endsOpen = false :=
  endsOpen_eq_false h.notCompound h.statement.ne_block

theorem IsExpression.isSimple {e : Tree} (h : IsExpression e) : IsSimple e :=
  ⟨.expression h, by cases h <;> rfl⟩

end Tree

/-- A program of one or more statements, of which only the last may have a body. -/
structure Program.IsCanonical (p : Program) : Prop where
  nonempty : p.statements ≠ []
  statements : ∀ s ∈ p.statements, s.IsStatement
  simple : ∀ s ∈ p.statements.dropLast, s.isCompound = false

end Plume
