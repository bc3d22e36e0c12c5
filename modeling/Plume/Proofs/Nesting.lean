import Plume.Proofs.Joining
import Plume.Proofs.Lossless
import Plume.Proofs.Spans

/-!
# Spans nest

The span of whatever occurs in a parsed tree reaches from the start of a token to the end of that
token or a later one. It holds the spans of the children, which come in the order of the source and
do not overlap (`Tree.Nests`). The parser only copies places from tokens, so this follows from the
stretches of tokens that the tree was read from (`Tree.ReadFrom`), once their order is carried over
to places.
-/

namespace Plume

/-- What takes stretches in turn is related in pairs, if all that takes a later stretch is. -/
theorem InTurn.pairwise {α : Type} {R : Nat → Nat → α → Prop} {S : α → α → Prop} {lo hi : Nat}
    {xs : List α} (hR : ∀ i j x, R i j x → i ≤ j)
    (hS : ∀ i j i' j' x y, R i j x → R i' j' y → j ≤ i' → S x y) (h : InTurn R lo hi xs) :
    xs.Pairwise S := by
  induction h with
  | nil => exact .nil
  | cons hi hx hxs ih =>
    refine .cons (fun y hy => ?_) ih
    obtain ⟨i', j', hle, -, hy⟩ := hxs.exists_of_mem hR hy
    exact hS _ _ _ _ _ y hx hy hle

namespace Tree

/-- How the span of a tree lies to the tokens and to the spans of its children. -/
structure Nests (tokens : List Token) (n : Tree) : Prop where
  forward : n.span.start < n.span.stop
  within : ∀ c ∈ n.children, n.span.start ≤ c.span.start ∧ c.span.stop ≤ n.span.stop
  inOrder : n.children.Pairwise fun a b => a.span.stop ≤ b.span.start
  bounded : ∃ (i k : Nat) (first last : Token), i ≤ k ∧ tokens[i]? = some first
    ∧ tokens[k]? = some last ∧ n.span.start = first.span.start ∧ n.span.stop = last.span.stop

variable {source : Text} {n m : Tree} {i j i' j' : Nat}

/-! ## From tokens to places -/

/-- What was read from an earlier token on starts no later. -/
theorem ReadFrom.start_le_start (hn : n.ReadFrom (tokenize source).tokens i j)
    (hm : m.ReadFrom (tokenize source).tokens i' j') (hle : i ≤ i') :
    n.span.start ≤ m.span.start := by
  cases hn with
  | node hs _ _ hn _ =>
    cases hm with
    | node ht _ _ hm _ =>
      rw [hn, hm]
      exact Token.start_le_start hs ht hle

/-- What was read up to an earlier token stops no later. -/
theorem ReadFrom.stop_le_stop (hn : n.ReadFrom (tokenize source).tokens i j)
    (hm : m.ReadFrom (tokenize source).tokens i' j') (hle : j ≤ j') :
    n.span.stop ≤ m.span.stop := by
  cases hn with
  | node _ hs _ hn _ =>
    cases hm with
    | node _ ht _ hm _ =>
      rw [hn, hm]
      exact Token.stop_le_stop hs ht (Nat.le_of_succ_le_succ hle)

/-- What was read from a later stretch starts behind. -/
theorem ReadFrom.stop_le_start (hn : n.ReadFrom (tokenize source).tokens i j)
    (hm : m.ReadFrom (tokenize source).tokens i' j') (hle : j ≤ i') :
    n.span.stop ≤ m.span.start := by
  cases hn with
  | node _ hs _ hn _ =>
    cases hm with
    | node ht _ _ hm _ =>
      rw [hn, hm]
      exact (Token.follows_of_lt hs ht hle).2

/-- What was read from tokens nests, as long as the end of input is not among them. -/
theorem ReadFrom.nests (h : n.ReadFrom (tokenize source).tokens i j)
    (hkinds : ∀ k < j, ∀ t, (tokenize source).tokens[k]? = some t → t.kind ≠ .endOfInput) :
    n.Nests (tokenize source).tokens := by
  have hread := h
  cases h with
  | @node _ _ k first last hfirst hlast hik hspan hchildren =>
    have hle : ∀ i j t, ReadFrom (tokenize source).tokens i j t → i ≤ j := fun _ _ _ => ReadFrom.le
    refine ⟨?_, fun c hc => ?_, ?_, i, k, first, last, hik, hfirst, hlast, ?_⟩
    · have hlt := Token.start_lt_stop (List.mem_of_getElem? hlast)
        (hkinds k (Nat.lt_succ_self k) last hlast)
      rw [hspan]
      exact (Token.start_le_start hfirst hlast hik).trans_lt hlt
    · obtain ⟨i', j', hi', hj', hc⟩ := hchildren.exists_of_mem hle hc
      exact ⟨hread.start_le_start hc hi', hc.stop_le_stop hread hj'⟩
    · exact hchildren.pairwise hle fun _ _ _ _ _ _ hx hy => hx.stop_le_start hy
    · rw [hspan]
      exact ⟨rfl, rfl⟩

end Tree

/-! ## Scripts -/

/-- The end of input is nowhere but at the end. -/
theorem Terminated.kind_ne {body : List Token} {stop t : Token} (h : Terminated (body ++ [stop]))
    (hstop : stop.kind = .endOfInput) (ht : t ∈ body) : t.kind ≠ .endOfInput := by
  have honce := h.once
  rw [kinds_append, List.count_append, kinds_cons, hstop, kinds_nil, List.count_singleton_self,
    Nat.add_eq_right, List.count_eq_zero] at honce
  exact fun hkind => honce (hkind ▸ List.mem_map_of_mem ht)

namespace Script

variable {source : Text} {p : Program} {n : Tree}

/-- What occurs in a parsed tree was read from tokens before the end of input. -/
theorem exists_readFrom (h : parse source = .ok p) (hn : Tree.OccursIn n p.toTree) :
    ∃ i j, n.ReadFrom (tokenize source).tokens i j
      ∧ ∀ k < j, ∀ t, (tokenize source).tokens[k]? = some t → t.kind ≠ .endOfInput := by
  obtain ⟨-, hparse⟩ := parse_eq_ok_iff.mp h
  obtain ⟨body, stop, i, j, htokens, hstop, hj, hread⟩ := readFrom_of_parse hparse
  obtain ⟨i', j', -, hj', hnode⟩ := hread.of_occursIn hn
  obtain ⟨last, hlast⟩ := Token.exists_last_line source
  have hterminated := Token.terminated_tokenize hlast
  refine ⟨i', j', hnode, fun k hk t ht => ?_⟩
  rw [htokens] at ht hterminated
  rw [List.getElem?_append_left (by omega)] at ht
  exact hterminated.kind_ne hstop (List.mem_of_getElem? ht)

/-- The spans of a parsed tree nest. -/
theorem nests_of_parse (h : parse source = .ok p) (hn : Tree.OccursIn n p.toTree) :
    n.Nests (tokenize source).tokens := by
  obtain ⟨i, j, hread, hkinds⟩ := exists_readFrom h hn
  exact hread.nests hkinds

/-- A sum in parentheses over two lines, as a factor beside another one in parentheses. -/
def groupedProduct : Text := Text.joinLines ["a = (b", "+ 1) * (c)"]

theorem nests_of_parse_groupedProduct :
    ∃ p n, parse groupedProduct = .ok p ∧ Tree.OccursIn n p.toTree
      ∧ n.span = ⟨⟨1, 6⟩, ⟨2, 4⟩⟩ ∧ n.children.length = 2
      ∧ n.Nests (tokenize groupedProduct).tokens := by
  obtain ⟨p, n, hparse, hsum, hspan, hchildren⟩ : ∃ p n, parse groupedProduct = .ok p
      ∧ Tree.OccursIn n p.toTree ∧ n.span = ⟨⟨1, 6⟩, ⟨2, 4⟩⟩ ∧ n.children.length = 2 :=
    ⟨_, _, rfl, .child (.head _) (.child (.tail _ (.head _)) (.child (.head _) .self)), rfl, rfl⟩
  exact ⟨p, n, hparse, hsum, hspan, hchildren, nests_of_parse hparse hsum⟩

end Script

end Plume
