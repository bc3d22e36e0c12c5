import Plume.Console.Menu
import Plume.Proofs.Flattening
import Plume.Proofs.Invariance

/-!
# Sources and the categories of the menu

Before the menu runs a source it looks for certain texts in it, those that the chosen category calls
for. It looks at the source and not at its tree, but a script of the category is never turned away:
if the tree has a node of the kind that a category is about, the source has what the category calls
for (`Console.Menu.hint?_eq_none_of_concerns`).

## Shape of the proof

From the node to the source there are three steps. The tokens of a node are among those of its tree
(`flatten_subset_of_isNode`), and these among the tokens of the source (`mem_kinds_of_mem_flatten`).
A token of fixed spelling is spelled that way (`text_eq_of_denotes`), and stands in the source
(`isInfix_of_mem_tokens`). What a category calls for is then a matter of the tokens that its nodes
have (`Concerns.met`).
-/

namespace Plume

/-! ## Texts in texts -/

/-- A text contains its parts. -/
theorem Text.contains_iff {t part : Text} : t.contains part = true ↔ part <:+: t := by
  induction t with
  | nil => simp [Text.contains]
  | cons u rest ih =>
    rw [Text.contains, Bool.or_eq_true, ih, List.isPrefixOf_iff_prefix, List.infix_cons_iff]

/-- Every line of a text is a part of it. -/
theorem SplitsInto.isInfix {text line : Text} {lines : List Text} (h : SplitsInto text lines)
    (hline : line ∈ lines) : line <:+: text := by
  induction h with
  | last =>
    rw [List.mem_singleton.mp hline]
  | @lineFeed first rest lines _ _ _ ih =>
    rcases List.mem_cons.mp hline with rfl | hrest
    · exact (List.prefix_append _ _).isInfix
    · exact (ih hrest).trans ((List.suffix_cons _ _).trans (List.suffix_append _ _)).isInfix
  | @carriageReturn first rest lines _ _ ih =>
    rcases List.mem_cons.mp hline with rfl | hrest
    · exact (List.prefix_append _ _).isInfix
    · refine (ih hrest).trans (List.IsSuffix.isInfix ?_)
      exact ((List.suffix_cons _ _).trans (List.suffix_cons _ _)).trans (List.suffix_append _ _)

/-- The text of a token is a part of the source. -/
theorem isInfix_of_mem_tokens {source : Text} {t : Token} (h : t ∈ (tokenize source).tokens) :
    t.text <:+: source := by
  obtain ⟨k, line, hline, before, after, rfl, -⟩ := Token.exists_isSliceOf h
  have hmem := List.mem_of_getElem? hline
  exact List.IsInfix.trans ⟨before, after, rfl⟩ ((splitsInto_lines source).isInfix hmem)

/-! ## Spelling -/

namespace TokenKind

/-- The kinds of fixed spelling, each with its spelling. -/
def spellings : List (Text × TokenKind) := keywords ++ marks

/-- Whether tokens of a kind are spelled as what they stand for is. -/
def isLiteral : TokenKind → Bool
  | .number _ | .string _ | .name _ => true
  | _ => false

end TokenKind

/-- A lexeme of a kind of fixed spelling is spelled that way. -/
theorem Lexicon.text_eq_of_denotes {t s : Text} {kind : TokenKind} (h : Denotes t kind)
    (hs : (s, kind) ∈ TokenKind.spellings) : t = s := by
  have hunique : ∀ a ∈ TokenKind.spellings, ∀ b ∈ TokenKind.spellings, a.2 = b.2 → a.1 = b.1 := by
    decide
  have hfixed : ∀ a ∈ TokenKind.spellings, a.2.isLiteral = false := by decide
  cases h with
  | keyword h => exact hunique _ (List.mem_append_left _ h) _ hs rfl
  | mark h => exact hunique _ (List.mem_append_right _ h) _ hs rfl
  | name | int | float | string => cases hfixed _ hs

/-- A token of fixed spelling is found in the source by its spelling. -/
theorem contains_of_mem_kinds {source s : Text} {kind : TokenKind}
    (hkind : kind ∈ kinds (tokenize source).tokens) (hs : (s, kind) ∈ TokenKind.spellings) :
    source.contains s = true := by
  obtain ⟨t, ht, rfl⟩ := List.mem_map.mp hkind
  rw [Text.contains_iff]
  rcases isSpelled_of_mem_tokenize ht with ⟨hend, -⟩ | hdenotes
  · have hnot : ∀ a ∈ TokenKind.spellings, a.2 ≠ .endOfInput := by decide
    exact absurd hend (hnot _ hs)
  · rw [← Lexicon.text_eq_of_denotes hdenotes hs]
    exact isInfix_of_mem_tokens ht

/-! ## Tokens of a node -/

namespace Tree

/-- The tokens of a tree are among those of a sequence that it stands in. -/
theorem mem_flattenAll {separator kind : TokenKind} {ts : List Tree} {t : Tree} (ht : t ∈ ts)
    (hkind : kind ∈ t.flatten) : kind ∈ flattenAll separator ts := by
  induction ts with
  | nil => cases ht
  | cons first rest ih =>
    cases rest with
    | nil =>
      obtain rfl := List.mem_singleton.mp ht
      rwa [flattenAll]
    | cons second more =>
      rw [flattenAll]
      · rcases List.mem_cons.mp ht with rfl | hrest
        · exact List.mem_append_left _ hkind
        · exact List.mem_append_right _ (List.mem_cons_of_mem _ (ih hrest))
      · simp

/-- The tokens of a part are among those of the tree. -/
theorem flatten_subset_of_part {t c : Tree} (hc : c ∈ t.parts) : c.flatten ⊆ t.flatten := by
  intro kind hkind
  cases t with
  | number | boolean | string | reference => cases hc
  | list span items | call span callee items =>
    have hmem : kind ∈ flattenAll .comma items := mem_flattenAll hc hkind
    simp [flatten, hmem]
  | block span statements => exact mem_flattenAll hc hkind
  | assign | print =>
    obtain rfl := List.mem_singleton.mp hc
    simp [flatten, hkind]
  | binary | ifThen | whileLoop =>
    simp only [parts, List.mem_cons, List.not_mem_nil, or_false] at hc
    rcases hc with rfl | rfl <;> simp [flatten, hkind]
  | ifElse | forRange =>
    simp only [parts, List.mem_cons, List.not_mem_nil, or_false] at hc
    rcases hc with rfl | rfl | rfl <;> simp [flatten, hkind]

/-- The tokens of a node are among those of the tree. -/
theorem flatten_subset_of_isNode {n t : Tree} (h : IsNode n t) : n.flatten ⊆ t.flatten := by
  induction h with
  | self => exact List.Subset.refl _
  | part hc _ ih => exact List.Subset.trans ih (flatten_subset_of_part hc)

end Tree

/-- Leaving out parentheses adds nothing. -/
theorem ungroup_subset (p : Parens) (ks : List TokenKind) : ungroup p ks ⊆ ks := by
  induction ks generalizing p with
  | nil => exact List.Subset.refl _
  | cons k ks ih =>
    rw [ungroup]
    split
    · exact List.Subset.trans (ih _) (List.subset_cons_self _ _)
    · exact List.cons_subset_cons _ (ih _)

/-- The tokens of a node of a script are tokens of its source. -/
theorem Script.mem_kinds_of_mem_flatten {source : Text} {p : Program} {n : Tree} {kind : TokenKind}
    (h : Script.parse source = .ok p) (hn : Tree.IsNode n p.toTree) (hkind : kind ∈ n.flatten) :
    kind ∈ kinds (tokenize source).tokens := by
  have hread := Parser.parseFrom_eq_ok.mp (Script.parse_eq_ok_iff.mp h).2
  have hflatten : p.flatten ++ [.endOfInput]
      = ungroup .start (kinds (tokenize source).tokens) := Parser.read?_flatten hread
  have hmem : kind ∈ p.flatten := Tree.flatten_subset_of_isNode hn hkind
  refine ungroup_subset .start _ ?_
  rw [← hflatten]
  exact List.mem_append_left _ hmem

/-! ## Categories -/

namespace Console

/-- What is called for is there, `has` saying which texts are. -/
def Requirement.Met (has : Text → Prop) : Requirement → Prop
  | .nothing => True
  | .anyOf parts _ => ∃ part ∈ parts, has part
  | .allOf parts _ => ∀ part ∈ parts, has part

/-- What is met by less is met by more. -/
theorem Requirement.Met.mono {has has' : Text → Prop} {r : Requirement} (h : r.Met has)
    (himp : ∀ part, has part → has' part) : r.Met has' := by
  cases r with
  | nothing => trivial
  | anyOf parts hint =>
    obtain ⟨part, hmem, hpart⟩ := h
    exact ⟨part, hmem, himp part hpart⟩
  | allOf parts hint => exact fun part hmem => himp part (h part hmem)

/-- There is no hint exactly if the requirement is met by the text. -/
theorem Requirement.hint?_eq_none_iff {source : Text} {r : Requirement} :
    r.hint? source = none ↔ r.Met (source.contains · = true) := by
  cases r <;> simp [Requirement.hint?, Requirement.Met]

namespace Menu

/-- The nodes that a choice of the menu is about. -/
inductive Concerns : Text → Tree → Prop
  | arithmetic (span : Span) (op : Arithmetic) (left right : Tree) :
      Concerns "1" (.binary span (.arithmetic op) left right)
  | list (span : Span) (target : Ident) (inner : Span) (items : List Tree) :
      Concerns "2" (.assign span target (.list inner items))
  | forLoop (span : Span) (iterator : Ident) (first stop body : Tree) :
      Concerns "3" (.forRange span iterator first stop body)
  | whileLoop (span : Span) (condition body : Tree) : Concerns "4" (.whileLoop span condition body)
  | ifThen (span : Span) (condition body : Tree) : Concerns "5" (.ifThen span condition body)
  | ifElse (span : Span) (condition body otherwise : Tree) :
      Concerns "5" (.ifElse span condition body otherwise)
  | assignment (span : Span) (target : Ident) (value : Tree) :
      Concerns "6" (.assign span target value)

/-- A text is the spelling of a token of the node. -/
def Spells (n : Tree) (part : Text) : Prop :=
  ∃ kind ∈ n.flatten, (part, kind) ∈ TokenKind.spellings

/-- A node that holds the tokens that are called for spells all of them. -/
theorem met_allOf {n : Tree} {hint : Text} (called : List (Text × TokenKind))
    (hspellings : ∀ m ∈ called, m ∈ TokenKind.spellings) (hkinds : ∀ m ∈ called, m.2 ∈ n.flatten) :
    (Requirement.allOf (called.map Prod.fst) hint).Met (Spells n) := by
  intro part hpart
  obtain ⟨m, hm, rfl⟩ := List.mem_map.mp hpart
  exact ⟨m.2, hkinds m hm, hspellings m hm⟩

/-- What a category calls for is spelled by the tokens of every node that it is about. -/
theorem Concerns.met {choice : Text} {n : Tree} (h : Concerns choice n) :
    ∃ c, categories.lookup choice = some c ∧ c.requirement.Met (Spells n) := by
  cases h with
  -- any one of the operators will do; in the other categories all of the tokens are called for
  | arithmetic span op left right =>
    refine ⟨_, rfl, op.symbol, ?_, .arithmetic op, by simp [Tree.flatten, Operator.kind], ?_⟩
    · cases op <;> decide
    · cases op <;> decide
  | list span target inner items =>
    exact ⟨_, rfl, met_allOf [("=", .assign), ("[", .openBracket), ("]", .closeBracket)]
      (by decide) (by simp [Tree.flatten])⟩
  | forLoop span iterator first stop body =>
    exact ⟨_, rfl, met_allOf [("for", .wordFor), ("in", .wordIn), ("range", .wordRange),
      (":", .colon), ("(", .openParen)] (by decide) (by simp [Tree.flatten])⟩
  | whileLoop span condition body =>
    exact ⟨_, rfl, met_allOf [("while", .wordWhile), (":", .colon)] (by decide)
      (by simp [Tree.flatten])⟩
  | ifThen span condition body | ifElse span condition body otherwise =>
    exact ⟨_, rfl, met_allOf [("if", .wordIf), (":", .colon)] (by decide) (by simp [Tree.flatten])⟩
  | assignment span target value =>
    exact ⟨_, rfl, met_allOf [("=", .assign)] (by decide) (by simp [Tree.flatten])⟩

/-- A source whose tree has a node that a choice is about gets no hint from the category of the
choice. -/
theorem hint?_eq_none_of_concerns {source choice : Text} {p : Program} {n : Tree}
    (hp : Script.parse source = .ok p) (hn : Tree.IsNode n p.toTree) (hc : Concerns choice n) :
    ∃ c, categories.lookup choice = some c ∧ c.requirement.hint? source = none := by
  obtain ⟨c, hlookup, hmet⟩ := hc.met
  refine ⟨c, hlookup, Requirement.hint?_eq_none_iff.mpr (hmet.mono ?_)⟩
  rintro part ⟨kind, hkind, hpart⟩
  exact contains_of_mem_kinds (Script.mem_kinds_of_mem_flatten hp hn hkind) hpart

/-- A loop inside the `else` of a condition, on three lines. -/
def nestedLoop : Text :=
  Text.joinLines ["if a == b: c", "else: for\ti in", "range(0, 2): print(i)"]

theorem hint?_eq_none_of_concerns_nestedLoop :
    ∃ p n c, Script.parse nestedLoop = .ok p ∧ Tree.IsNode n p.toTree ∧ Concerns "3" n
      ∧ categories.lookup ("3" : Text) = some c ∧ c.requirement.hint? nestedLoop = none := by
  obtain ⟨span, inner, condition, body, loop, iterator, first, stop, last, hp⟩ :
      ∃ span inner condition body loop iterator first stop last, Script.parse nestedLoop = .ok
        ⟨span, [.ifElse inner condition body (.forRange loop iterator first stop last)]⟩ :=
    ⟨_, _, _, _, _, _, _, _, _, rfl⟩
  have hn : Tree.IsNode (.forRange loop iterator first stop last)
      (Program.toTree
        ⟨span, [.ifElse inner condition body (.forRange loop iterator first stop last)]⟩) :=
    .part List.mem_cons_self (.part (by simp [Tree.parts]) .self)
  have hc := Concerns.forLoop loop iterator first stop last
  obtain ⟨c, hlookup, hhint⟩ := hint?_eq_none_of_concerns hp hn hc
  exact ⟨_, _, c, hp, hn, hc, hlookup, hhint⟩

end Menu

end Console

end Plume
