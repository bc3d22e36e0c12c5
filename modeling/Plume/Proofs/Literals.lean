import Plume.Proofs.Invariance
import Plume.Proofs.Numerals
import Plume.Proofs.Spacing
import Plume.Proofs.Writing

/-!
# Literals read back unchanged

A literal is an integer in decimal, a truth value, a string between quotes, or a list of these in
brackets. Assigning one to a name gives the name the value that the literal was written for, and
does nothing else (`Script.run_assign_literal`).

## Shape of the proof

The source is read from its end: `Reads` says which kinds of tokens a text consists of, wherever it
starts, and there is one lemma for each thing that can stand in front of such a text. The kinds are
those that the assignment is written with as a tree, so the source parses into that tree up to
places (`parse_write`), and the tree has the value of the literal.
-/

namespace Plume

open Token Lexicon

/-! ## Literals -/

/-- A value that is written as one token. -/
inductive Scalar where
  | int (n : Nat)
  | bool (b : Bool)
  | str (t : Text) (noQuote : quote ∉ t) (onOneLine : CodeUnit.lineFeed ∉ t)

namespace Scalar

/-- The value. -/
def value : Scalar → Value
  | .int n => .int n
  | .bool b => .bool b
  | .str t .. => .str t

/-- How the value is written. -/
def text : Scalar → Text
  | .int n => Text.ofNat n
  | .bool b => Text.ofBool b
  | .str t .. => quote :: t ++ [quote]

/-- The expression that the text stands for, without a place. -/
def tree : Scalar → Tree
  | .int n => .number .blank (.int n)
  | .bool b => .boolean .blank b
  | .str t .. => .string .blank t

/-- The kind of the token. -/
def kind : Scalar → TokenKind
  | .int n => .number (.int n)
  | .bool b => if b then .wordTrue else .wordFalse
  | .str t .. => .string t

theorem write_tree (s : Scalar) : s.tree.write = [s.kind] := by
  cases s <;> rfl

/-- A scalar is an expression. -/
theorem isExpression_tree (s : Scalar) : s.tree.IsExpression := by
  cases s with
  | int n => exact .number _ _
  | bool b => exact .boolean _ _
  | str t => exact .string _ _

theorem eval_tree (s : Scalar) (builtins : Builtins) (env : Environment) :
    s.tree.eval builtins env = .ok s.value := by
  cases s <;> rfl

/-- The text of a scalar denotes its token. -/
theorem denotes (s : Scalar) : Denotes s.text s.kind := by
  cases s with
  | int n =>
    have hdigits : Text.ofNat n ∈ digits :=
      mem_digits.mpr ⟨Text.ofNat_ne_nil n, Text.isDigit_of_mem_ofNat⟩
    have hvalue : decimalValue (Text.ofNat n) = n := by
      rw [decimalValue_eq, Text.digitsValue_ofNat]
    have hint := Denotes.int hdigits
    rwa [hvalue] at hint
  | bool b =>
    cases b with
    | true => exact .keyword (by decide)
    | false => exact .keyword (by decide)
  | str t noQuote => exact .string noQuote

/-- A scalar is written on one line. -/
theorem lineFeed_not_mem_text (s : Scalar) : CodeUnit.lineFeed ∉ s.text := by
  cases s with
  | int n => exact Text.not_mem_of_isDigit Text.isDigit_of_mem_ofNat rfl
  | bool b => cases b <;> decide
  | str t noQuote onOneLine =>
    have hquote : CodeUnit.lineFeed ≠ quote := by decide
    simp [text, hquote, onOneLine]

/-- The token. -/
def lexeme (s : Scalar) : Lexeme := ⟨s.text, s.kind, s.denotes, s.lineFeed_not_mem_text⟩

end Scalar

/-- A value that has a literal. -/
inductive Literal where
  | scalar (s : Scalar)
  | list (items : List Scalar)

namespace Literal

/-- The value. -/
def value : Literal → Value
  | .scalar s => s.value
  | .list items => .list (items.map Scalar.value)

/-- How the value is written. -/
def text : Literal → Text
  | .scalar s => s.text
  | .list items => "[" ++ List.intercalate ", " (items.map Scalar.text) ++ "]"

/-- The tree that the text stands for, without its places. -/
def tree : Literal → Tree
  | .scalar s => s.tree
  | .list items => .list .blank (items.map Scalar.tree)

end Literal

/-! ## The tokens of an assignment -/

/-- A text has no problems and consists of tokens of the given kinds, wherever it starts. -/
def Reads (text : Text) (ks : List TokenKind) : Prop :=
  ∀ line column, (scanFrom line column text).map withoutPlace = ks.map .ok

namespace Reads

variable {rest : Text} {ks : List TokenKind}

theorem nil : Reads [] [] := fun _ _ => rfl

/-- What reads as tokens spells them. -/
theorem spells (h : Reads rest ks) : Spells rest ks := by
  rw [spells_iff, scanEach_lines]
  exact h 1 1

/-- A space in front changes nothing. -/
theorem space (h : Reads rest ks) : Reads (0x20 :: rest) ks := by
  intro line column
  rw [scanFrom_blank rfl]
  exact h line (column + 1)

/-- A lexeme in front is one more token, if what follows stands apart from it. -/
theorem lexeme (h : Reads rest ks) (lexeme : Lexeme) (hrest : StartsApart rest) :
    Reads (lexeme.text ++ rest) (lexeme.kind :: ks) := by
  intro line column
  rw [lexeme.scanFrom_append hrest, List.map_cons, h, List.map_cons]
  rfl

/-- A mark in front is one more token, if what follows stands apart from it. -/
theorem mark {u : CodeUnit} {kind : TokenKind} (h : Reads rest ks)
    (hmark : ([u], kind) ∈ TokenKind.marks) (hrest : StartsApart rest) :
    Reads (u :: rest) (kind :: ks) := by
  have hmarks : ∀ m ∈ TokenKind.marks, CodeUnit.lineFeed ∉ m.1 := by decide
  exact h.lexeme ⟨[u], kind, .mark hmark, hmarks _ hmark⟩ hrest

/-- Nothing goes on with an opening bracket. -/
theorem openBracket (h : Reads rest ks) : Reads (0x5B :: rest) (.openBracket :: ks) := by
  intro line column
  have hscan : scanFrom line column ([0x5B] ++ rest)
      = .ok ⟨.openBracket, [0x5B], ⟨⟨line, column⟩, ⟨line, column + 1⟩⟩⟩
        :: scanFrom line (column + 1) rest := scanFrom_token (by decide) (by decide) rfl
  rw [← List.singleton_append, hscan, List.map_cons, h, List.map_cons]
  rfl

/-- A scalar in front is its token, if what follows stands apart from it. -/
theorem scalar (h : Reads rest ks) (s : Scalar) (hrest : StartsApart rest) :
    Reads (s.text ++ rest) (s.tree.write ++ ks) := by
  rw [s.write_tree]
  exact h.lexeme s.lexeme hrest

/-- A space, a comma or a closing bracket ends what stands before it. -/
theorem startsApart {c : CodeUnit} (hc : c = 0x20 ∨ c = 0x2C ∨ c = 0x5D) :
    StartsApart (c :: rest) := by
  rcases hc with rfl | rfl | rfl <;> exact startsApart_cons rfl (by decide) (by decide)

/-- Items with commas between them are read as the tokens of the items. -/
theorem items (items : List Scalar) :
    Reads (List.intercalate ", " (items.map Scalar.text) ++ [0x5D])
      (Tree.writeAll .comma (items.map Scalar.tree) ++ [.closeBracket]) := by
  have hclose : Reads [0x5D] [.closeBracket] := nil.mark (by decide) (.inl rfl)
  induction items with
  | nil => exact hclose
  | cons s rest ih =>
    cases rest with
    | nil =>
      rw [List.map_singleton, List.map_singleton, List.intercalate_singleton, Tree.writeAll]
      exact hclose.scalar s (startsApart (.inr (.inr rfl)))
    -- behind every item but the last stand a comma and a space
    | cons next rest =>
      have hcomma : Reads
          (0x2C :: 0x20 :: (List.intercalate ", " ((next :: rest).map Scalar.text) ++ [0x5D]))
          (.comma :: (Tree.writeAll .comma ((next :: rest).map Scalar.tree) ++ [.closeBracket])) :=
        ih.space.mark (by decide) (startsApart (.inl rfl))
      have hwrite : Tree.writeAll .comma ((s :: next :: rest).map Scalar.tree)
          = s.tree.write ++ .comma :: Tree.writeAll .comma ((next :: rest).map Scalar.tree) := by
        rw [List.map_cons, List.map_cons, Tree.writeAll]
        exact List.cons_ne_nil _ _
      rw [hwrite, List.map_cons, List.map_cons, List.intercalate_cons_cons, List.append_assoc,
        List.append_assoc, List.append_assoc]
      exact hcomma.scalar s (startsApart (.inr (.inl rfl)))

/-- A literal is read as its tokens. -/
theorem literal (l : Literal) : Reads l.text l.tree.write := by
  cases l with
  | scalar s =>
    have hscalar := nil.scalar s (.inl rfl)
    rwa [List.append_nil, List.append_nil] at hscalar
  | list items => exact (Reads.items items).openBracket

/-- A name, the sign `=` and a literal, with spaces between them. -/
theorem assignment {x : Text} (hx : x ∈ word) (hname : ∀ kind, (x, kind) ∉ TokenKind.keywords)
    (l : Literal) :
    Reads (x ++ (" = " : Text) ++ l.text) (.name x :: .assign :: l.tree.write) := by
  have hline : CodeUnit.lineFeed ∉ x := by
    intro hmem
    obtain ⟨u, r, rfl, hu, hr⟩ := mem_word.mp hx
    rcases List.mem_cons.mp hmem with rfl | hmem
    · exact absurd hu (by decide)
    · exact absurd (hr _ hmem) (by decide)
  have hsign : Reads (0x3D :: 0x20 :: l.text) (.assign :: l.tree.write) :=
    (Reads.literal l).space.mark (by decide) (startsApart (.inl rfl))
  rw [List.append_assoc]
  exact hsign.space.lexeme ⟨x, .name x, .name hx hname, hline⟩ (startsApart (.inl rfl))

end Reads

/-! ## The run of an assignment -/

namespace Literal

/-- Items evaluate to their values. -/
theorem evalAll_tree (items : List Scalar) (builtins : Builtins) (env : Environment) :
    Tree.evalAll builtins env (items.map Scalar.tree) = .ok (items.map Scalar.value) := by
  induction items with
  | nil => rfl
  | cons s rest ih =>
    rw [List.map_cons, Tree.evalAll, s.eval_tree, ih]
    rfl

theorem eval_tree (l : Literal) (builtins : Builtins) (env : Environment) :
    l.tree.eval builtins env = .ok l.value := by
  cases l with
  | scalar s => exact s.eval_tree builtins env
  | list items =>
    rw [tree, Tree.eval, evalAll_tree]
    rfl

/-- The assignment of a literal to a name as a program, without its places. -/
def assignment (x : Text) (l : Literal) : Program :=
  ⟨.blank, [.assign .blank ⟨.blank, x⟩ l.tree]⟩

/-- The assignment of a literal is canonical. -/
theorem isCanonical_assignment (x : Text) (l : Literal) : (l.assignment x).IsCanonical where
  nonempty := List.cons_ne_nil _ _
  statements := by
    intro s hs
    obtain rfl := List.mem_singleton.mp hs
    cases l with
    | scalar s => exact .assign _ _ s.isExpression_tree
    | list items =>
      refine .assignList _ _ _ fun i hi => ?_
      obtain ⟨s, -, rfl⟩ := List.mem_map.mp hi
      exact s.isExpression_tree
  simple := by
    intro s hs
    cases hs

/-- The assignment of a literal binds its value and changes nothing else. -/
theorem run_assignment (x : Text) (l : Literal) (fuel : Nat) (builtins : Builtins)
    (env : Environment) :
    (l.assignment x).run fuel builtins env
      = .ok ⟨[], none, env.insert x l.value, some l.value⟩ := by
  have hexec : Tree.exec builtins fuel (.assign .blank ⟨.blank, x⟩ l.tree) (.start env)
      = .ok ⟨State.bind (.start env) x l.value, some l.value⟩ := by
    rw [Tree.exec, State.eval, State.start, l.eval_tree]
    rfl
  rw [Program.run, assignment, Tree.execAll, hexec]
  rfl

end Literal

/-- A script that assigns a literal to a name parses, prints nothing and fails nowhere. Its value is
the one that the literal was written for, and it binds the name to that and changes no other
binding. -/
theorem Script.run_assign_literal {x : Text} (hx : x ∈ word)
    (hname : ∀ kind, (x, kind) ∉ TokenKind.keywords) (l : Literal) :
    ∃ p, Script.parse (x ++ (" = " : Text) ++ l.text) = .ok p
      ∧ ∀ fuel builtins env,
        p.run fuel builtins env = .ok ⟨[], none, env.insert x l.value, some l.value⟩
        ∧ ∀ y, (env.insert x l.value).get? y = if y = x then some l.value else env.get? y := by
  obtain ⟨herrors, hkinds⟩ := (Reads.assignment hx hname l).spells
  obtain ⟨p, hp, hbare⟩ := parse_write (l.isCanonical_assignment x) hkinds
  refine ⟨p, Script.parse_eq_ok_iff.mpr ⟨herrors, hp⟩, fun fuel builtins env => ⟨?_, ?_⟩⟩
  · exact Program.run_of_bare_eq hbare (l.run_assignment x fuel builtins env) rfl
  · exact env.get?_insert x l.value

/-- Digits, a truth value, the empty string, and a string that looks like the end of a list. -/
def mixedList : Literal :=
  .list [.int 1203, .bool true, .str [] (by decide) (by decide),
    .str ", 5]" (by decide) (by decide)]

theorem Script.run_assign_literal_mixedList :
    Text.ofString "x_1" ∈ word
      ∧ (∀ kind, (Text.ofString "x_1", kind) ∉ TokenKind.keywords)
      ∧ ∃ p, Script.parse (Text.ofString "x_1" ++ (" = " : Text) ++ mixedList.text) = .ok p
        ∧ ∀ fuel builtins env,
          p.run fuel builtins env
              = .ok ⟨[], none, env.insert "x_1" mixedList.value, some mixedList.value⟩
            ∧ ∀ y, (env.insert "x_1" mixedList.value).get? y
              = if y = "x_1" then some mixedList.value else env.get? y := by
  have hx : Text.ofString "x_1" ∈ word := mem_word.mpr ⟨_, _, rfl, rfl, List.all_eq_true.mp rfl⟩
  have hname : ∀ kind, (Text.ofString "x_1", kind) ∉ TokenKind.keywords := by
    intro kind hmem
    have hwords : Text.ofString "x_1" ∉ TokenKind.keywords.map Prod.fst := by decide
    exact hwords (List.mem_map_of_mem hmem)
  exact ⟨hx, hname, run_assign_literal hx hname mixedList⟩

end Plume
