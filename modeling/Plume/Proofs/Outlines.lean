import Plume.Proofs.Layout
import Plume.Proofs.Numerals
import Plume.Tree.Outline

/-!
# Trees and their outlines

An outline says by its indentation what stands below what. So it is first seen as a tree of
headings (`Outline`), whose lines are the headings at their depths. Three things then make the text
of a tree determine the tree up to its places (`text_eq_text_iff`):

* a line determines its depth and its heading, since no label starts with a space and none is the
  start of another (`line_injective`);
* the lines determine the outline, since what stands below a heading ends where the depth falls back
  (`Outline.entries_append_inj`);
* the outline determines the tree, which can be read off it (`Tree.tree?_toOutline`).

The text is cut into its lines at each LF. A string or a name with an LF in it is therefore
excluded: it could continue with what looks like further lines.
-/

namespace Plume

/-! ## Headings -/

/-- What a line of an outline can be. -/
inductive Label where
  | number
  | boolean
  | string
  | reference
  | operator
  | list
  | call
  | arguments
  | block
  | assignment
  | conditional
  | condition
  | body
  | otherwise
  | forLoop
  | iterator
  | rangeStart
  | rangeEnd
  | whileLoop
  | print
  deriving DecidableEq

/-- What stands in front of the content of a line. -/
def Label.opening : Label → Text
  | .number => "Number("
  | .boolean => "Boolean("
  | .string => "String("
  | .reference => "Variable("
  | .operator => "BinOp(op='"
  | .list => "List:"
  | .call => "FunctionCall("
  | .arguments => "Args:"
  | .block => "Block:"
  | .assignment => "Assignment:"
  | .conditional => "If:"
  | .condition => "Condition:"
  | .body => "Body:"
  | .otherwise => "Else:"
  | .forLoop => "For:"
  | .iterator => "Iterator: "
  | .rangeStart => "Range Start:"
  | .rangeEnd => "Range End:"
  | .whileLoop => "While:"
  | .print => "Print:"

/-- What stands behind the content of a line. -/
def Label.closing : Label → Text
  | .number | .boolean | .string | .reference => ")"
  | .operator => "')"
  | .call => "):"
  | _ => []

/-- A line without its indentation. -/
structure Heading where
  label : Label
  content : Text

/-- A heading as it is written. -/
def Heading.text (h : Heading) : Text := h.label.opening ++ h.content ++ h.label.closing

/-- Every label. -/
def Label.all : List Label :=
  [.number, .boolean, .string, .reference, .operator, .list, .call, .arguments, .block, .assignment,
    .conditional, .condition, .body, .otherwise, .forLoop, .iterator, .rangeStart, .rangeEnd,
    .whileLoop, .print]

theorem Label.mem_all (label : Label) : label ∈ all := by
  cases label <;> decide

/-- No label opens as another does. -/
theorem Label.eq_of_opening_prefix {a b : Label} (h : a.opening <+: b.opening) : a = b := by
  have hall : (all.all fun a => all.all fun b =>
      a.opening.isPrefixOf b.opening == (a == b)) = true := by decide +kernel
  have hab := List.all_eq_true.mp (List.all_eq_true.mp hall a a.mem_all) b b.mem_all
  rw [List.isPrefixOf_iff_prefix.mpr h, beq_iff_eq] at hab
  exact beq_iff_eq.mp hab.symm

/-- A label does not open with a space. -/
theorem Label.opening_eq_cons (label : Label) :
    ∃ u rest, label.opening = u :: rest ∧ u ≠ 0x20 := by
  have hall : (all.all fun a => a.opening.head?.any (· != 0x20)) = true := by decide +kernel
  have hlabel := List.all_eq_true.mp hall label label.mem_all
  cases hopening : label.opening with
  | nil => simp [hopening] at hlabel
  | cons u rest => exact ⟨u, rest, rfl, by simpa [hopening] using hlabel⟩

/-- A heading can be read back from its text. -/
theorem Heading.text_injective : Function.Injective Heading.text := by
  rintro ⟨a, content⟩ ⟨b, content'⟩ h
  simp only [Heading.text, List.append_assoc] at h
  have hlabel : a = b := by
    obtain hopening | hopening := List.prefix_or_prefix_of_prefix
      (List.prefix_append a.opening (content ++ a.closing)) (h ▸ List.prefix_append b.opening _)
    · exact Label.eq_of_opening_prefix hopening
    · exact (Label.eq_of_opening_prefix hopening).symm
  subst hlabel
  rw [List.append_cancel_right (List.append_cancel_left h)]

/-- A heading does not begin with a space. -/
theorem Heading.text_eq_cons (h : Heading) : ∃ u rest, h.text = u :: rest ∧ u ≠ 0x20 := by
  obtain ⟨u, rest, hopening, hu⟩ := h.label.opening_eq_cons
  exact ⟨u, _, by rw [Heading.text, hopening]; rfl, hu⟩

/-- An indented line is none of the headings. -/
theorem outlineLine_ne {depth : Nat} {a : Heading} (t : Text) :
    Tree.outlineLine (depth + 1) t ≠ a.text := by
  obtain ⟨u, rest, htext, hu⟩ := a.text_eq_cons
  rw [htext, Tree.outlineLine, repeated_succ]
  intro h
  exact hu (List.cons.inj h).1.symm

/-- A line determines its depth and its heading. -/
theorem line_injective {depth depth' : Nat} {a b : Heading}
    (h : Tree.outlineLine depth a.text = Tree.outlineLine depth' b.text) :
    depth = depth' ∧ a = b := by
  induction depth generalizing depth' with
  | zero =>
    cases depth' with
    | zero => exact ⟨rfl, Heading.text_injective h⟩
    | succ depth' => exact absurd h.symm (outlineLine_ne b.text)
  | succ depth ih =>
    cases depth' with
    | zero => exact absurd h (outlineLine_ne a.text)
    | succ depth' =>
      simp only [Tree.outlineLine, repeated_succ, List.append_assoc] at h
      obtain ⟨rfl, hheading⟩ := ih (List.append_cancel_left h)
      exact ⟨rfl, hheading⟩

/-! ## Outlines -/

/-- A heading and what stands below it. -/
inductive Outline where
  | node (heading : Heading) (below : List Outline)

namespace Outline

mutual

/-- The headings of an outline and their depths, from top to bottom. -/
def entries (depth : Nat) : Outline → List (Nat × Heading)
  | .node heading below => (depth, heading) :: entriesAll (depth + 1) below

/-- The headings of several outlines and their depths. -/
def entriesAll (depth : Nat) : List Outline → List (Nat × Heading)
  | [] => []
  | o :: rest => entries depth o ++ entriesAll depth rest

end

mutual

/-- The content of every heading has a property. -/
def Every (p : Text → Prop) : Outline → Prop
  | .node heading below => p heading.content ∧ EveryAll p below

/-- The content of every heading of several outlines has a property. -/
def EveryAll (p : Text → Prop) : List Outline → Prop
  | [] => True
  | o :: rest => Every p o ∧ EveryAll p rest

end

mutual

/-- What holds of every heading of an outline holds of each of its entries. -/
theorem Every.of_mem_entries {p : Text → Prop} {depth : Nat} {e : Nat × Heading} :
    ∀ {o : Outline}, o.Every p → e ∈ o.entries depth → p e.2.content
  | .node _ _, ⟨hheading, hbelow⟩, he => by
    obtain rfl | he := List.mem_cons.mp he
    · exact hheading
    · exact EveryAll.of_mem_entriesAll hbelow he

/-- What holds of every heading of outlines holds of each of their entries. -/
theorem EveryAll.of_mem_entriesAll {p : Text → Prop} {depth : Nat} {e : Nat × Heading} :
    ∀ {os : List Outline}, EveryAll p os → e ∈ entriesAll depth os → p e.2.content
  | _ :: _, ⟨hfirst, hrest⟩, he => by
    obtain he | he := List.mem_append.mp he
    · exact hfirst.of_mem_entries he
    · exact EveryAll.of_mem_entriesAll hrest he

end

/-- Outlines at a depth, and what is less deep behind them, start no deeper than that. -/
theorem head?_entriesAll_append {depth : Nat} {more : List (Nat × Heading)}
    (hmore : ∀ e ∈ more.head?, e.1 < depth) (os : List Outline) :
    ∀ e ∈ (entriesAll depth os ++ more).head?, e.1 ≤ depth := by
  intro e he
  match os with
  | [] => exact (hmore e he).le
  | .node heading below :: rest =>
    obtain rfl := Option.some.inj he
    exact le_rfl

mutual

/-- Where the depth falls back behind an outline, the lines determine the outline. -/
theorem entries_append_inj {depth : Nat} {more more' : List (Nat × Heading)}
    (hmore : ∀ e ∈ more.head?, e.1 ≤ depth) (hmore' : ∀ e ∈ more'.head?, e.1 ≤ depth) :
    ∀ o o' : Outline, entries depth o ++ more = entries depth o' ++ more' → o = o' ∧ more = more'
  | .node heading below, .node heading' below', h => by
    simp only [entries, List.cons_append, List.cons.injEq, Prod.mk.injEq, true_and] at h
    obtain ⟨rfl, rfl⟩ := entriesAll_append_inj
      (fun e he => Nat.lt_succ_of_le (hmore e he)) (fun e he => Nat.lt_succ_of_le (hmore' e he))
      below below' h.2
    exact ⟨by rw [h.1], rfl⟩

/-- Outlines can be read back from their entries, and what follows them too, as long as it is less
deep. -/
theorem entriesAll_append_inj {depth : Nat} {more more' : List (Nat × Heading)}
    (hmore : ∀ e ∈ more.head?, e.1 < depth) (hmore' : ∀ e ∈ more'.head?, e.1 < depth) :
    ∀ os os' : List Outline, entriesAll depth os ++ more = entriesAll depth os' ++ more' →
      os = os' ∧ more = more'
  | [], [], h => ⟨rfl, h⟩
  | [], .node heading below :: _, h => by
    -- what follows no outline is less deep than the first line of one
    rw [show more = _ from h] at hmore
    exact absurd (hmore (depth, heading) rfl) (lt_irrefl depth)
  | .node heading below :: _, [], h => by
    rw [show more' = _ from h.symm] at hmore'
    exact absurd (hmore' (depth, heading) rfl) (lt_irrefl depth)
  | o :: rest, o' :: rest', h => by
    simp only [entriesAll, List.append_assoc] at h
    obtain ⟨rfl, hrest⟩ := entries_append_inj (head?_entriesAll_append hmore rest)
      (head?_entriesAll_append hmore' rest') o o' h
    obtain ⟨rfl, hmores⟩ := entriesAll_append_inj hmore hmore' rest rest' hrest
    exact ⟨rfl, hmores⟩

end

/-- The line of a heading at its depth. -/
def line (e : Nat × Heading) : Text := Tree.outlineLine e.1 e.2.text

/-- An outline can be read back from its lines. -/
theorem lines_injective {o o' : Outline} (h : (o.entries 0).map line = (o'.entries 0).map line) :
    o = o' := by
  have hline : Function.Injective line := by
    rintro ⟨depth, a⟩ ⟨depth', b⟩ hline
    obtain ⟨rfl, rfl⟩ := line_injective hline
    rfl
  have hentries := List.map_injective_iff.mpr hline h
  have hnil : ∀ e ∈ ([] : List (Nat × Heading)).head?, e.1 ≤ 0 := by simp
  exact (entries_append_inj hnil hnil o o' (by rw [hentries])).1

end Outline

/-! ## Trees as outlines -/

namespace Tree

mutual

/-- The outline of a tree. -/
def toOutline : Tree → Outline
  | .number _ value => .node ⟨.number, value.text⟩ []
  | .boolean _ value => .node ⟨.boolean, Text.ofBool value⟩ []
  | .string _ value => .node ⟨.string, value⟩ []
  | .reference _ name => .node ⟨.reference, name⟩ []
  | .binary _ op left right => .node ⟨.operator, op.symbol⟩ [toOutline left, toOutline right]
  | .list _ items => .node ⟨.list, []⟩ (toOutlines items)
  | .call _ callee arguments =>
    .node ⟨.call, callee.name⟩ [.node ⟨.arguments, []⟩ (toOutlines arguments)]
  | .block _ statements => .node ⟨.block, []⟩ (toOutlines statements)
  | .assign _ target value =>
    .node ⟨.assignment, []⟩ [.node ⟨.reference, target.name⟩ [], toOutline value]
  | .ifThen _ condition body =>
    .node ⟨.conditional, []⟩
      [.node ⟨.condition, []⟩ [toOutline condition], .node ⟨.body, []⟩ [toOutline body]]
  | .ifElse _ condition body otherwise =>
    .node ⟨.conditional, []⟩
      [.node ⟨.condition, []⟩ [toOutline condition], .node ⟨.body, []⟩ [toOutline body],
        .node ⟨.otherwise, []⟩ [toOutline otherwise]]
  | .forRange _ iterator first stop body =>
    .node ⟨.forLoop, []⟩
      [.node ⟨.iterator, iterator.name⟩ [], .node ⟨.rangeStart, []⟩ [toOutline first],
        .node ⟨.rangeEnd, []⟩ [toOutline stop], .node ⟨.body, []⟩ [toOutline body]]
  | .whileLoop _ condition body =>
    .node ⟨.whileLoop, []⟩
      [.node ⟨.condition, []⟩ [toOutline condition], .node ⟨.body, []⟩ [toOutline body]]
  | .print _ argument => .node ⟨.print, []⟩ [toOutline argument]

/-- The outlines of several trees. -/
def toOutlines : List Tree → List Outline
  | [] => []
  | t :: rest => toOutline t :: toOutlines rest

end

section

attribute [local simp] outline toOutline Outline.entries Outline.entriesAll Outline.line
  Heading.text Label.opening Label.closing

mutual

/-- The lines of a tree are those of its outline. -/
theorem outline_eq (depth : Nat) :
    ∀ t : Tree, outline depth t = (t.toOutline.entries depth).map Outline.line
  | .number .. | .boolean .. | .string .. | .reference .. => rfl
  | .binary _ _ left right => by simp [outline_eq _ left, outline_eq _ right]
  | .list _ items => by simp [outlineAll_eq _ items]
  | .call _ _ arguments => by simp [outlineAll_eq _ arguments]
  | .block _ statements => by simp [outlineAll_eq _ statements]
  | .assign _ _ value => by simp [outline_eq _ value]
  | .ifThen _ condition body => by simp [outline_eq _ condition, outline_eq _ body]
  | .ifElse _ condition body otherwise => by
    simp [outline_eq _ condition, outline_eq _ body, outline_eq _ otherwise]
  | .forRange _ _ first stop body => by
    simp [outline_eq _ first, outline_eq _ stop, outline_eq _ body]
  | .whileLoop _ condition body => by simp [outline_eq _ condition, outline_eq _ body]
  | .print _ argument => by simp [outline_eq _ argument]

/-- The lines of trees are those of their outlines. -/
theorem outlineAll_eq (depth : Nat) :
    ∀ ts : List Tree,
      outlineAll depth ts = (Outline.entriesAll depth (toOutlines ts)).map Outline.line
  | [] => rfl
  | t :: rest => by
    rw [outlineAll, outline_eq depth t, outlineAll_eq depth rest, toOutlines, Outline.entriesAll,
      List.map_append]

end

end

end Tree

namespace Outline

/-- The operator that is written in the given way. -/
def operator? (symbol : Text) : Option Operator := Operator.all.find? (·.symbol == symbol)

/-- An operator can be read back from its symbol. -/
theorem operator?_symbol (op : Operator) : operator? op.symbol = some op := by
  rcases op with op | op <;> cases op <;> decide

mutual

/-- The tree that an outline stands for. -/
def tree? : Outline → Option Tree
  | .node ⟨.number, content⟩ [] => some (.number .blank (.ofText content))
  | .node ⟨.boolean, content⟩ [] => some (.boolean .blank (content == Text.ofBool true))
  | .node ⟨.string, content⟩ [] => some (.string .blank content)
  | .node ⟨.reference, content⟩ [] => some (.reference .blank content)
  | .node ⟨.operator, content⟩ [left, right] =>
    return .binary .blank (← operator? content) (← tree? left) (← tree? right)
  | .node ⟨.list, _⟩ items => return .list .blank (← trees? items)
  | .node ⟨.call, content⟩ [.node _ arguments] =>
    return .call .blank ⟨.blank, content⟩ (← trees? arguments)
  | .node ⟨.block, _⟩ statements => return .block .blank (← trees? statements)
  | .node ⟨.assignment, _⟩ [.node target _, value] =>
    return .assign .blank ⟨.blank, target.content⟩ (← tree? value)
  -- the parts of a statement are told apart by their order, and need not show their headings
  | .node ⟨.conditional, _⟩ [.node _ [condition], .node _ [body]] =>
    return .ifThen .blank (← tree? condition) (← tree? body)
  | .node ⟨.conditional, _⟩ [.node _ [condition], .node _ [body], .node _ [otherwise]] =>
    return .ifElse .blank (← tree? condition) (← tree? body) (← tree? otherwise)
  | .node ⟨.forLoop, _⟩ [.node iterator _, .node _ [first], .node _ [stop], .node _ [body]] =>
    return .forRange .blank ⟨.blank, iterator.content⟩ (← tree? first) (← tree? stop) (← tree? body)
  | .node ⟨.whileLoop, _⟩ [.node _ [condition], .node _ [body]] =>
    return .whileLoop .blank (← tree? condition) (← tree? body)
  | .node ⟨.print, _⟩ [argument] => return .print .blank (← tree? argument)
  | _ => none

/-- The trees that several outlines stand for. -/
def trees? : List Outline → Option (List Tree)
  | [] => some []
  | o :: rest => return (← tree? o) :: (← trees? rest)

end

end Outline

namespace Tree

section

attribute [local simp] toOutline Outline.tree? bare Ident.bare

mutual

/-- The outline of a tree can be read as the tree without its places. -/
theorem tree?_toOutline : ∀ t : Tree, t.toOutline.tree? = some t.bare
  | .number _ value => by simp [Number.ofText_text]
  | .boolean _ value => by cases value <;> rfl
  | .string .. | .reference .. => rfl
  | .binary _ op left right => by
    simp [tree?_toOutline left, tree?_toOutline right, Outline.operator?_symbol]
  | .list _ items => by simp [trees?_toOutlines items]
  | .call _ _ arguments => by simp [trees?_toOutlines arguments]
  | .block _ statements => by simp [trees?_toOutlines statements]
  | .assign _ _ value => by simp [tree?_toOutline value]
  | .ifThen _ condition body => by simp [tree?_toOutline condition, tree?_toOutline body]
  | .ifElse _ condition body otherwise => by
    simp [tree?_toOutline condition, tree?_toOutline body, tree?_toOutline otherwise]
  | .forRange _ _ first stop body => by
    simp [tree?_toOutline first, tree?_toOutline stop, tree?_toOutline body]
  | .whileLoop _ condition body => by simp [tree?_toOutline condition, tree?_toOutline body]
  | .print _ argument => by simp [tree?_toOutline argument]

/-- Trees can be read back from their outlines, but for their spans. -/
theorem trees?_toOutlines : ∀ ts : List Tree, Outline.trees? (toOutlines ts) = some (ts.map bare)
  | [] => rfl
  | t :: rest => by
    simp [toOutlines, Outline.trees?, tree?_toOutline t, trees?_toOutlines rest]

end

mutual

/-- Places do not show in an outline. -/
theorem toOutline_bare : ∀ t : Tree, t.bare.toOutline = t.toOutline
  | .number .. | .boolean .. | .string .. | .reference .. => rfl
  | .binary _ _ left right => by simp [toOutline_bare left, toOutline_bare right]
  | .list _ items => by simp [toOutlines_bare items]
  | .call _ _ arguments => by simp [toOutlines_bare arguments]
  | .block _ statements => by simp [toOutlines_bare statements]
  | .assign _ _ value => by simp [toOutline_bare value]
  | .ifThen _ condition body => by simp [toOutline_bare condition, toOutline_bare body]
  | .ifElse _ condition body otherwise => by
    simp [toOutline_bare condition, toOutline_bare body, toOutline_bare otherwise]
  | .forRange _ _ first stop body => by
    simp [toOutline_bare first, toOutline_bare stop, toOutline_bare body]
  | .whileLoop _ condition body => by simp [toOutline_bare condition, toOutline_bare body]
  | .print _ argument => by simp [toOutline_bare argument]

theorem toOutlines_bare : ∀ ts : List Tree, toOutlines (ts.map bare) = toOutlines ts
  | [] => rfl
  | t :: rest => by
    rw [List.map_cons, toOutlines, toOutlines, toOutline_bare t, toOutlines_bare rest]

end

end

/-! ## Outlines as texts -/

mutual

/-- The strings and the names in a tree. -/
def words : Tree → List Text
  | .number .. | .boolean .. => []
  | .string _ value => [value]
  | .reference _ name => [name]
  | .binary _ _ left right => words left ++ words right
  | .list _ items => wordsAll items
  | .call _ callee arguments => callee.name :: wordsAll arguments
  | .block _ statements => wordsAll statements
  | .assign _ target value => target.name :: words value
  | .ifThen _ condition body => words condition ++ words body
  | .ifElse _ condition body otherwise => words condition ++ words body ++ words otherwise
  | .forRange _ iterator first stop body =>
    iterator.name :: words first ++ words stop ++ words body
  | .whileLoop _ condition body => words condition ++ words body
  | .print _ argument => words argument

/-- The strings and the names in several trees. -/
def wordsAll : List Tree → List Text
  | [] => []
  | t :: rest => words t ++ wordsAll rest

end

/-- A heading without content above one outline. -/
theorem every_section {label : Label} {o : Outline} (h : o.Every (CodeUnit.lineFeed ∉ ·)) :
    (Outline.node ⟨label, []⟩ [o]).Every (CodeUnit.lineFeed ∉ ·) :=
  ⟨List.not_mem_nil, h, trivial⟩

mutual

/-- Only strings and names can bring an LF into an outline. -/
theorem every_toOutline :
    ∀ t : Tree, (∀ w ∈ t.words, CodeUnit.lineFeed ∉ w) →
      t.toOutline.Every (CodeUnit.lineFeed ∉ ·)
  | .number _ value, _ => ⟨value.lineFeed_not_mem_text, trivial⟩
  | .boolean _ value, _ => ⟨by cases value <;> decide, trivial⟩
  | .string .., h | .reference .., h => ⟨h _ List.mem_cons_self, trivial⟩
  | .binary _ op left right, h => by
    have hop : CodeUnit.lineFeed ∉ op.symbol := by
      rcases op with op | op <;> cases op <;> decide
    obtain ⟨hleft, hright⟩ := List.forall_mem_append.mp h
    exact ⟨hop, every_toOutline left hleft, every_toOutline right hright, trivial⟩
  | .list _ items, h => ⟨List.not_mem_nil, every_toOutlines items h⟩
  -- the name is a heading, and the arguments stand below one that says nothing else
  | .call _ _ arguments, h => by
    obtain ⟨hcallee, harguments⟩ := List.forall_mem_cons.mp h
    exact ⟨hcallee, ⟨List.not_mem_nil, every_toOutlines arguments harguments⟩, trivial⟩
  | .block _ statements, h => ⟨List.not_mem_nil, every_toOutlines statements h⟩
  | .assign _ _ value, h => by
    obtain ⟨htarget, hvalue⟩ := List.forall_mem_cons.mp h
    exact ⟨List.not_mem_nil, ⟨htarget, trivial⟩, every_toOutline value hvalue, trivial⟩
  | .ifThen _ condition body, h => by
    obtain ⟨hcondition, hbody⟩ := List.forall_mem_append.mp h
    exact ⟨List.not_mem_nil, every_section (every_toOutline condition hcondition),
      every_section (every_toOutline body hbody), trivial⟩
  | .ifElse _ condition body otherwise, h => by
    obtain ⟨h, hotherwise⟩ := List.forall_mem_append.mp h
    obtain ⟨hcondition, hbody⟩ := List.forall_mem_append.mp h
    exact ⟨List.not_mem_nil, every_section (every_toOutline condition hcondition),
      every_section (every_toOutline body hbody),
      every_section (every_toOutline otherwise hotherwise), trivial⟩
  | .forRange _ _ first stop body, h => by
    obtain ⟨h, hbody⟩ := List.forall_mem_append.mp h
    obtain ⟨h, hstop⟩ := List.forall_mem_append.mp h
    obtain ⟨hiterator, hfirst⟩ := List.forall_mem_cons.mp h
    exact ⟨List.not_mem_nil, ⟨hiterator, trivial⟩, every_section (every_toOutline first hfirst),
      every_section (every_toOutline stop hstop), every_section (every_toOutline body hbody),
      trivial⟩
  | .whileLoop _ condition body, h => by
    obtain ⟨hcondition, hbody⟩ := List.forall_mem_append.mp h
    exact ⟨List.not_mem_nil, every_section (every_toOutline condition hcondition),
      every_section (every_toOutline body hbody), trivial⟩
  | .print _ argument, h => every_section (every_toOutline argument h)

/-- The headings of trees stand on one line each if the words of the trees do. -/
theorem every_toOutlines :
    ∀ ts : List Tree, (∀ w ∈ wordsAll ts, CodeUnit.lineFeed ∉ w) →
      Outline.EveryAll (CodeUnit.lineFeed ∉ ·) (toOutlines ts)
  | [], _ => trivial
  | t :: rest, h => by
    obtain ⟨ht, hrest⟩ := List.forall_mem_append.mp h
    exact ⟨every_toOutline t ht, every_toOutlines rest hrest⟩

end

/-- A line of an outline is one line if its heading is. -/
theorem lineFeed_not_mem_line {depth : Nat} {heading : Heading}
    (h : CodeUnit.lineFeed ∉ heading.content) :
    CodeUnit.lineFeed ∉ Outline.line (depth, heading) := by
  have hindent : CodeUnit.lineFeed ∉ repeated depth ("  " : Text) := fun hmem =>
    absurd (mem_of_mem_repeated hmem) (by decide)
  have hall : ∀ a ∈ Label.all, CodeUnit.lineFeed ∉ a.opening ∧ CodeUnit.lineFeed ∉ a.closing := by
    decide +kernel
  obtain ⟨hopening, hclosing⟩ := hall heading.label heading.label.mem_all
  simp only [Outline.line, outlineLine, Heading.text, List.mem_append, not_or]
  exact ⟨hindent, ⟨hopening, h⟩, hclosing⟩

theorem outline_ne_nil (depth : Nat) (t : Tree) : outline depth t ≠ [] := by
  cases t <;> simp [outline]

/-- The text of a tree can be cut into its lines again. -/
theorem splitOn_text {t : Tree} (h : ∀ w ∈ t.words, CodeUnit.lineFeed ∉ w) :
    t.text.splitOn CodeUnit.lineFeed = outline 0 t := by
  refine List.splitOn_intercalate _ ?_ (outline_ne_nil 0 t)
  intro l hl
  rw [outline_eq] at hl
  obtain ⟨⟨depth, heading⟩, hentry, rfl⟩ := List.mem_map.mp hl
  exact lineFeed_not_mem_line ((every_toOutline t h).of_mem_entries hentry)

/-- Trees whose strings and names have no LF are written alike only if they are the same up to their
places. -/
theorem text_eq_text_iff {t t' : Tree} (h : ∀ w ∈ t.words, CodeUnit.lineFeed ∉ w)
    (h' : ∀ w ∈ t'.words, CodeUnit.lineFeed ∉ w) : t.text = t'.text ↔ t.bare = t'.bare := by
  constructor
  · intro htext
    have hlines : outline 0 t = outline 0 t' := by
      rw [← splitOn_text h, htext, splitOn_text h']
    rw [outline_eq, outline_eq] at hlines
    have htree := tree?_toOutline t
    rw [Outline.lines_injective hlines, tree?_toOutline] at htree
    exact (Option.some.inj htree).symm
  · intro hbare
    rw [text, text, outline_eq, outline_eq, ← toOutline_bare t, hbare, toOutline_bare]

/-- Two conditionals, with an `else` for the outer or for the inner one. The string in them looks
like the line of an `else`. -/
def danglingElse (outer : Bool) : Tree :=
  let x : Tree := .reference .blank "x"
  let y : Tree := .reference .blank "y"
  let message : Tree := .print .blank (.string .blank ")  Else:")
  let nothing : Tree := .block .blank []
  if outer then .ifElse .blank x (.ifThen .blank y message) nothing
  else .ifThen .blank x (.ifElse .blank y message nothing)

theorem text_danglingElse_ne :
    (∀ outer, ∀ w ∈ (danglingElse outer).words, CodeUnit.lineFeed ∉ w)
      ∧ (danglingElse true).text ≠ (danglingElse false).text := by
  have hwords : ∀ outer, ∀ w ∈ (danglingElse outer).words, CodeUnit.lineFeed ∉ w := by decide
  refine ⟨hwords, ?_⟩
  rw [ne_eq, text_eq_text_iff (hwords true) (hwords false)]
  simp [danglingElse, bare]

end Tree

end Plume
