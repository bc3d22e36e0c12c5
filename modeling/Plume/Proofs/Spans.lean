import Mathlib.Order.Nat
import Plume.Proofs.Nodes
import Plume.Proofs.Reading

/-!
# The tokens that a tree was read from

Every node of a parsed tree was read from a stretch of the tokens. Its span reaches from the start
of the first of them to the end of the last, and its children were read from stretches inside of it,
one behind the other (`Tree.ReadFrom`). Parentheses that only group stand between the stretches.

## Shape of the proof

`Config.pieces` are the trees that a configuration holds, in the order of the source, and the places
where something starts that is not complete yet. They lie in turn on the tokens that have been read
(`Laid`). A token that is taken is a piece behind the others, or lies behind them as no piece, and
the last pieces may make up a tree (`Laid.reduce`). `Phase.Takes.laid` goes through what a token can
do, and `laid_advance?` is the step.
-/

namespace Plume

/-! ## Stretches in turn -/

/-- Things that take stretches one behind the other, all from `lo` on and before `hi`. Here
`R i j x` says that `x` takes the stretch from `i` up to but not including `j`. -/
inductive InTurn {α : Type} (R : Nat → Nat → α → Prop) : Nat → Nat → List α → Prop
  | nil {lo hi : Nat} : lo ≤ hi → InTurn R lo hi []
  | cons {lo i j hi : Nat} {x : α} {xs : List α} : lo ≤ i → R i j x → InTurn R j hi xs →
      InTurn R lo hi (x :: xs)

namespace InTurn

variable {α : Type} {R : Nat → Nat → α → Prop} {lo lo' mid hi hi' : Nat} {x : α} {xs ys : List α}

/-- There may be more room before the first. -/
theorem mono_left (h : InTurn R lo hi xs) (hlo : lo' ≤ lo) : InTurn R lo' hi xs := by
  cases h with
  | nil hle => exact .nil (hlo.trans hle)
  | cons hi hx hxs => exact .cons (hlo.trans hi) hx hxs

/-- There may be more room behind the last. -/
theorem mono_right (h : InTurn R lo hi xs) (hhi : hi ≤ hi') : InTurn R lo hi' xs := by
  induction h with
  | nil hle => exact .nil (hle.trans hhi)
  | cons hi hx _ ih => exact .cons hi hx (ih hhi)

/-- Things in turn, and behind them others in turn. -/
theorem append (hxs : InTurn R lo mid xs) (hys : InTurn R mid hi ys) :
    InTurn R lo hi (xs ++ ys) := by
  induction hxs with
  | nil hle => exact hys.mono_left hle
  | cons hi hx _ ih => exact .cons hi hx (ih hys)

/-- Things in turn can be parted anywhere. -/
theorem exists_of_append (h : InTurn R lo hi (xs ++ ys)) :
    ∃ mid, InTurn R lo mid xs ∧ InTurn R mid hi ys := by
  induction xs generalizing lo with
  | nil => exact ⟨lo, .nil le_rfl, h⟩
  | cons x xs ih =>
    cases h with
    | cons hi hx hxs =>
      obtain ⟨mid, hxs, hys⟩ := ih hxs
      exact ⟨mid, .cons hi hx hxs, hys⟩

theorem le (hR : ∀ i j x, R i j x → i ≤ j) (h : InTurn R lo hi xs) : lo ≤ hi := by
  induction h with
  | nil hle => exact hle
  | cons hi hx _ ih => exact hi.trans ((hR _ _ _ hx).trans ih)

/-- Each of the things takes a stretch between the two ends. -/
theorem exists_of_mem (hR : ∀ i j x, R i j x → i ≤ j) (h : InTurn R lo hi xs) (hx : x ∈ xs) :
    ∃ i j, lo ≤ i ∧ j ≤ hi ∧ R i j x := by
  induction h with
  | nil => cases hx
  | cons hlo hy hxs ih =>
    rcases List.mem_cons.mp hx with rfl | hx
    · exact ⟨_, _, hlo, hxs.le hR, hy⟩
    · obtain ⟨i, j, hi, hj, hx⟩ := ih hx
      exact ⟨i, j, hlo.trans ((hR _ _ _ hy).trans hi), hj, hx⟩

end InTurn

namespace Tree

/-- The trees that a tree is put together from and the names in it, in the order of the source. -/
def children : Tree → List Tree
  | .call _ callee arguments => .ofIdent callee :: arguments
  | .assign _ target value => [.ofIdent target, value]
  | .forRange _ iterator first stop body => [.ofIdent iterator, first, stop, body]
  | t => t.parts

/-- What a node is made of is among its children. -/
theorem parts_subset_children (t : Tree) : t.parts ⊆ t.children := by
  cases t <;> simp [parts, children]

/-- What occurs in a tree is the tree itself, or occurs in one of its children. These are its nodes
and the names in them. -/
inductive OccursIn (n : Tree) : Tree → Prop
  | self : OccursIn n n
  | child {t c : Tree} : c ∈ t.children → OccursIn n c → OccursIn n t

/-- A node of a tree occurs in it. -/
theorem IsNode.occursIn {n t : Tree} (h : IsNode n t) : OccursIn n t := by
  induction h with
  | self => exact .self
  | part hc _ ih => exact .child (parts_subset_children _ hc) ih

/-- The tree was read from the tokens from the `i`-th up to but not including the `j`-th, counted
from zero, and its children in turn from tokens among them. -/
inductive ReadFrom (tokens : List Token) : Nat → Nat → Tree → Prop
  | node {t : Tree} {i k : Nat} {first last : Token} : tokens[i]? = some first →
      tokens[k]? = some last → i ≤ k → t.span = first.span.to last.span →
      InTurn (ReadFrom tokens) i (k + 1) t.children → ReadFrom tokens i (k + 1) t

variable {tokens : List Token} {i j : Nat} {t : Tree}

/-- A tree is read from one token at least. -/
theorem ReadFrom.lt (h : t.ReadFrom tokens i j) : i < j := by
  cases h with
  | node _ _ hle => exact Nat.lt_succ_of_le hle

theorem ReadFrom.le (h : t.ReadFrom tokens i j) : i ≤ j := h.lt.le

/-- What occurs in a tree was read from tokens among those of the tree. -/
theorem ReadFrom.of_occursIn {n : Tree} (hn : OccursIn n t) (h : t.ReadFrom tokens i j) :
    ∃ i' j', i ≤ i' ∧ j' ≤ j ∧ n.ReadFrom tokens i' j' := by
  induction hn generalizing i j with
  | self => exact ⟨i, j, le_rfl, le_rfl, h⟩
  | child hc _ ih =>
    cases h with
    | node _ _ _ _ hchildren =>
      obtain ⟨i₁, j₁, hi₁, hj₁, hc⟩ := hchildren.exists_of_mem (fun _ _ _ => ReadFrom.le) hc
      obtain ⟨i₂, j₂, hi₂, hj₂, hn⟩ := ih hc
      exact ⟨i₂, j₂, hi₁.trans hi₂, hj₂.trans hj₁, hn⟩

end Tree

namespace Parser

/-! ## Pieces -/

/-- What has been read: a tree, or a place where something starts or stops that is not complete. -/
inductive Piece where
  | start (p : Position)
  | stop (p : Position)
  | tree (t : Tree)

namespace Piece

/-- The place where a piece can start something. -/
def start? : Piece → Option Position
  | .start p => some p
  | .stop _ => none
  | .tree t => some t.span.start

/-- The place where a piece can stop something. -/
def stop? : Piece → Option Position
  | .start _ => none
  | .stop p => some p
  | .tree t => some t.span.stop

/-- The tree that a piece is. -/
def tree? : Piece → Option Tree
  | .tree t => some t
  | _ => none

/-- The piece was read from the tokens from the `i`-th up to but not including the `j`-th. -/
inductive ReadFrom (tokens : List Token) : Nat → Nat → Piece → Prop
  | start {i : Nat} {t : Token} : tokens[i]? = some t →
      ReadFrom tokens i (i + 1) (.start t.span.start)
  | stop {i : Nat} {t : Token} : tokens[i]? = some t →
      ReadFrom tokens i (i + 1) (.stop t.span.stop)
  | tree {i j : Nat} {t : Tree} : t.ReadFrom tokens i j → ReadFrom tokens i j (.tree t)

variable {tokens : List Token} {i j : Nat} {x : Piece} {p : Position}

/-- A piece is read from one token at least. -/
theorem ReadFrom.lt (h : x.ReadFrom tokens i j) : i < j := by
  cases h with
  | start => exact Nat.lt_succ_self i
  | stop => exact Nat.lt_succ_self i
  | tree ht => exact ht.lt

/-- Where a piece starts, a token starts. -/
theorem ReadFrom.exists_first (h : x.ReadFrom tokens i j) (hp : x.start? = some p) :
    ∃ t, tokens[i]? = some t ∧ p = t.span.start := by
  cases h with
  | start ht =>
    cases hp
    exact ⟨_, ht, rfl⟩
  | stop => cases hp
  | tree ht =>
    cases hp
    cases ht with
    | node hfirst _ _ hspan => exact ⟨_, hfirst, by rw [hspan]; rfl⟩

/-- Where a piece stops, a token stops. -/
theorem ReadFrom.exists_last (h : x.ReadFrom tokens i j) (hp : x.stop? = some p) :
    ∃ k t, j = k + 1 ∧ tokens[k]? = some t ∧ p = t.span.stop := by
  cases h with
  | start => cases hp
  | stop ht =>
    cases hp
    exact ⟨_, _, rfl, ht, rfl⟩
  | tree ht =>
    cases hp
    cases ht with
    | node _ hlast _ hspan => exact ⟨_, _, rfl, hlast, by rw [hspan]; rfl⟩

end Piece

variable {tokens : List Token} {lo hi n : Nat} {xs before : List Piece} {t : Token}

/-- Without the places where something starts or stops, the trees still lie in turn. -/
theorem inTurn_trees (h : InTurn (Piece.ReadFrom tokens) lo hi xs) :
    InTurn (Tree.ReadFrom tokens) lo hi (xs.filterMap Piece.tree?) := by
  induction h with
  | nil hle => exact .nil hle
  | @cons lo i j hi x xs hi hx _ ih =>
    cases hx with
    | start => exact ih.mono_left (hi.trans (Nat.le_succ _))
    | stop => exact ih.mono_left (hi.trans (Nat.le_succ _))
    | tree ht => exact .cons hi ht ih

/-- The pieces lie in turn on the first `n` tokens. -/
def Laid (tokens : List Token) (n : Nat) (xs : List Piece) : Prop :=
  InTurn (Piece.ReadFrom tokens) 0 n xs

namespace Laid

/-- A token that is no piece. -/
theorem skip (h : Laid tokens n xs) : Laid tokens (n + 1) xs := h.mono_right (Nat.le_succ n)

theorem take {x : Piece} (h : Laid tokens n xs) (hx : x.ReadFrom tokens n (n + 1)) :
    Laid tokens (n + 1) (xs ++ [x]) :=
  h.append (.cons le_rfl hx (.nil le_rfl))

/-- A token that is a tree of its own. -/
theorem take_leaf {leaf : Tree} (h : Laid tokens n xs) (ht : tokens[n]? = some t)
    (hspan : leaf.span = t.span) (hleaf : leaf.children = []) :
    Laid tokens (n + 1) (xs ++ [.tree leaf]) :=
  h.take (.tree (.node ht ht le_rfl hspan (hleaf ▸ .nil (Nat.le_succ n))))

/-- The last pieces make up a tree: it has their trees as its children, and reaches from the place
where the first starts to the place where the last stops. -/
theorem reduce {whole : Tree} (h : Laid tokens n (before ++ xs))
    (hstart : xs.head?.bind Piece.start? = some whole.span.start)
    (hstop : xs.getLast?.bind Piece.stop? = some whole.span.stop)
    (hchildren : xs.filterMap Piece.tree? = whole.children) :
    Laid tokens n (before ++ [.tree whole]) := by
  obtain ⟨mid, hbefore, hpieces⟩ := h.exists_of_append
  refine hbefore.append ?_
  obtain ⟨y, hy, hystop⟩ := Option.bind_eq_some_iff.mp hstop
  obtain ⟨init, hinit⟩ := List.getLast?_eq_some_iff.mp hy
  -- the tree is read from where the first piece starts, not from `mid` on, to where the last stops
  cases hpieces with
  | nil => cases hstart
  | @cons _ i j _ x xs hi hx hxs =>
    obtain ⟨first, hfirst, hfirstStart⟩ := hx.exists_first hstart
    have hpieces : InTurn (Piece.ReadFrom tokens) i n (init ++ [y]) := hinit ▸ .cons le_rfl hx hxs
    obtain ⟨m, hinit', hy⟩ := hpieces.exists_of_append
    cases hy with
    | cons hm hy hend =>
      obtain ⟨k, last, rfl, hlast, hlastStop⟩ := hy.exists_last hystop
      have hle : ∀ i j x, Piece.ReadFrom tokens i j x → i ≤ j := fun _ _ _ h => h.lt.le
      have hik : i ≤ k := (hinit'.le hle).trans (hm.trans (Nat.le_of_lt_succ hy.lt))
      have hspan : whole.span = first.span.to last.span := by
        rw [Span.to, ← hfirstStart, ← hlastStop]
      have htrees := inTurn_trees (hinit'.append (.cons hm hy (.nil le_rfl)))
      rw [← hinit, hchildren] at htrees
      exact .cons hi (.tree (.node hfirst hlast hik hspan htrees)) (.nil (hend.le hle))

end Laid

/-! ## The pieces of a configuration -/

/-- Trees as pieces. -/
def trees (ts : List Tree) : List Piece := ts.map .tree

@[simp]
theorem trees_nil : trees [] = [] := rfl

@[simp]
theorem trees_append (ts us : List Tree) : trees (ts ++ us) = trees ts ++ trees us :=
  List.map_append

@[simp]
theorem trees_cons (t : Tree) (ts : List Tree) : trees (t :: ts) = .tree t :: trees ts := rfl

@[simp]
theorem filterMap_trees (ts : List Tree) : (trees ts).filterMap Piece.tree? = ts := by
  simp [trees, List.filterMap_map, Function.comp_def, Piece.tree?]

/-- A name as a piece. -/
def nameOf (x : Ident) : Piece := .tree (.ofIdent x)

/-- The pieces of a head. -/
def Head.pieces : Head → List Piece
  | .ifThen start condition => [.start start, .tree condition]
  | .ifElse start condition body => [.start start, .tree condition, .tree body]
  | .forRange start iterator first stop =>
    [.start start, nameOf iterator, .tree first, .tree stop]
  | .whileLoop start condition => [.start start, .tree condition]

/-- The pieces of the open bodies, the outermost first. -/
def piecesOuter : List OpenBody → List Piece
  | [] => []
  | b :: outer => piecesOuter outer ++ trees b.before ++ b.head.pieces

/-- The pieces of the open sequences. -/
def Nest.pieces (nest : Nest) : List Piece := piecesOuter nest.outer ++ trees nest.before

/-- The pieces before the expression that serves a purpose. -/
def Purpose.pieces : Purpose → List Piece
  | .statement => []
  | .assigned target => [nameOf target]
  | .item target opened before => nameOf target :: .start opened :: trees before
  | .compared _ start => [.start start]
  | .comparand _ start _ left => [.start start, .tree left]
  | .rangeFirst start iterator => [.start start, nameOf iterator]
  | .rangeStop start iterator first => [.start start, nameOf iterator, .tree first]
  | .printed start => [.start start]

/-- The pieces of what waits for an operand. -/
def Waiting.pieces : Waiting → List Piece
  | .operator left _ => [.tree left]
  | .group => []
  | .argument callee before => nameOf callee :: trees before

/-- The pieces of an open expression up to the current operand, the outermost first. -/
def piecesOpen (purpose : Purpose) : List Waiting → List Piece
  | [] => purpose.pieces
  | w :: waiting => piecesOpen purpose waiting ++ w.pieces

/-- The pieces of a statement in the given phase. -/
def Phase.pieces : Phase → List Piece
  | .statement => []
  | .operand purpose waiting => piecesOpen purpose waiting
  | .named purpose waiting name | .callOpened purpose waiting name =>
    piecesOpen purpose waiting ++ [nameOf name]
  | .operated purpose waiting e => piecesOpen purpose waiting ++ [.tree e]
  | .assigned target => [nameOf target]
  | .listOpened target opened => [nameOf target, .start opened]
  | .printWord start | .forWord start => [.start start]
  | .forNamed start iterator | .forIn start iterator | .forRange start iterator =>
    [.start start, nameOf iterator]
  | .forClosed start iterator first stop =>
    [.start start, nameOf iterator, .tree first, .tree stop]
  | .elseWord start condition body => [.start start, .tree condition, .tree body]
  | .stated s => [.tree s]

/-- What a configuration holds lies in turn on the first `n` tokens. The end of input, which
finishes a program, is no part of it. -/
def Config.Laid (tokens : List Token) (n : Nat) : Config → Prop
  | .reading nest phase => Parser.Laid tokens n (nest.pieces ++ phase.pieces)
  | .finished program => Parser.Laid tokens (n - 1) [.tree program.toTree]

/-- What is there once the token behind the first `n` has made the move lies in turn on the tokens,
behind the pieces `before`. The token is no piece where it opens a body or completes a statement. -/
def Move.Laid (tokens : List Token) (n : Nat) (before : List Piece) : Move → Prop
  | .goesOn next => Parser.Laid tokens (n + 1) (before ++ next.pieces)
  | .opens head => Parser.Laid tokens n (before ++ head.pieces)
  | .completes s => Parser.Laid tokens n (before ++ [.tree s])

/-! ## Statements -/

variable {c c' : Config} {nest : Nest} {purpose : Purpose} {waiting : List Waiting}

/-- Statements in turn make up a block. -/
theorem laid_block {statements : List Tree} {last : Tree}
    (h : Laid tokens n (before ++ (trees statements ++ [.tree last]))) :
    Laid tokens n (before ++
      [.tree (.block ((statements.headD last).span.to last.span) (statements ++ [last]))]) := by
  refine h.reduce ?_ ?_ ?_
  · cases statements <;> rfl
  · rw [List.getLast?_concat]
    rfl
  · rw [List.filterMap_append, filterMap_trees]
    rfl

/-- Statements in turn make up a body. -/
theorem laid_bodyOf {statements : List Tree} {last : Tree}
    (h : Laid tokens n (before ++ (trees statements ++ [.tree last]))) :
    Laid tokens n (before ++ [.tree (bodyOf statements last)]) := by
  cases statements with
  | nil => exact h
  | cons first more => exact laid_block h

/-- A head and its body make up a statement. -/
theorem laid_complete {head : Head} {body : Tree}
    (h : Laid tokens n (before ++ (head.pieces ++ [.tree body]))) :
    Laid tokens n (before ++ [.tree (head.complete body)]) := by
  cases head <;> exact h.reduce rfl rfl rfl

/-- The statements of the innermost open body make up the body. -/
theorem laid_innermost {head : Head} {around statements : List Tree} {outer : List OpenBody}
    {last : Tree} (h : Laid tokens n
      (piecesOuter (⟨head, around⟩ :: outer) ++ trees statements ++ [.tree last])) :
    Laid tokens n (piecesOuter outer ++ trees around
      ++ (head.pieces ++ [.tree (bodyOf statements last)])) := by
  rw [List.append_assoc] at h
  rw [← List.append_assoc]
  exact laid_bodyOf h

/-- An `else` makes up the bodies between it and its `if`. -/
theorem laid_closeToElse {outer : List OpenBody} {statements : List Tree} {last : Tree}
    (h : Laid tokens n (piecesOuter outer ++ trees statements ++ [.tree last]))
    (hc : closeToElse outer statements last = some c) : c.Laid tokens (n + 1) := by
  induction outer generalizing statements last with
  | nil => cases hc
  | cons b outer ih =>
    obtain ⟨head, around⟩ := b
    have hbody := laid_innermost h
    cases head with
    | ifThen start condition =>
      obtain rfl := Option.some.inj hc
      exact hbody.skip
    -- a complete statement, with which the search goes on one body further out
    | _ => exact ih (laid_complete hbody) hc

/-- The end of input makes up everything, the program last. -/
theorem laid_closeAll {outer : List OpenBody} {statements : List Tree} {last : Tree}
    (h : Laid tokens n (piecesOuter outer ++ trees statements ++ [.tree last])) :
    Laid tokens n [.tree (closeAll outer statements last).toTree] := by
  induction outer generalizing statements last with
  | nil =>
    have hall : Laid tokens n ([] ++ (trees statements ++ [.tree last])) := h
    exact laid_block hall
  | cons b outer ih => exact ih (laid_complete (laid_innermost h))

/-- The token behind a statement is no piece of it. -/
theorem laid_afterStatement? {s : Tree} (h : Laid tokens n (nest.pieces ++ [.tree s]))
    (hc : afterStatement? nest s t = some c) : c.Laid tokens (n + 1) := by
  unfold afterStatement? at hc
  split at hc
  · obtain rfl := Option.some.inj hc
    simpa [Config.Laid, Nest.pieces, Phase.pieces] using h.skip
  · exact laid_closeToElse h hc
  · obtain rfl := Option.some.inj hc
    exact laid_closeAll h
  · cases hc

/-- What a move lays, the configuration behind it holds. -/
theorem Move.Laid.run {move : Move} (h : move.Laid tokens n nest.pieces)
    (hc : move.run nest t = some c) : c.Laid tokens (n + 1) := by
  cases move with
  | goesOn next =>
    obtain rfl := Option.some.inj hc
    exact h
  | opens head =>
    obtain rfl := Option.some.inj hc
    simpa [openBody, Config.Laid, Nest.pieces, Phase.pieces, piecesOuter] using Laid.skip h
  | completes s => exact laid_afterStatement? h hc

/-! ## Expressions -/

/-- The first token of an operand is a leaf, but for a parenthesis, which is no piece. -/
theorem laid_startOperand? {phase : Phase} (ht : tokens[n]? = some t)
    (h : Laid tokens n (before ++ piecesOpen purpose waiting))
    (hphase : startOperand? purpose waiting t = some phase) :
    Laid tokens (n + 1) (before ++ phase.pieces) := by
  have hleaf : ∀ leaf : Tree, leaf.span = t.span → leaf.children = [] →
      Laid tokens (n + 1) (before ++ (piecesOpen purpose waiting ++ [.tree leaf])) := by
    intro leaf hspan hchildren
    rw [← List.append_assoc]
    exact h.take_leaf ht hspan hchildren
  unfold startOperand? at hphase
  split at hphase <;> cases hphase
  · exact hleaf _ rfl rfl
  · exact hleaf _ rfl rfl
  · exact hleaf _ rfl rfl
  · exact hleaf _ rfl rfl
  · exact hleaf _ rfl rfl
  · simpa [Phase.pieces, piecesOpen, Waiting.pieces] using h.skip

/-- Operators that take the operand make up trees. -/
theorem laid_giveOperand {takes : Arithmetic → Bool} {operand e : Tree} {rest : List Waiting}
    (h : Laid tokens n (before ++ piecesOpen purpose waiting ++ [.tree operand]))
    (hgive : giveOperand takes waiting operand = (rest, e)) :
    Laid tokens n (before ++ piecesOpen purpose rest ++ [.tree e]) := by
  fun_induction giveOperand takes waiting operand with
  | case1 left op waiting operand htakes ih =>
    refine ih ?_ hgive
    rw [piecesOpen, ← List.append_assoc, List.append_assoc] at h
    exact h.reduce rfl rfl rfl
  | case2 left op waiting operand htakes =>
    cases hgive
    exact h
  | case3 waiting operand hnot =>
    cases hgive
    exact h

/-- A call reaches from its name to the parenthesis that closes it. -/
theorem laid_callTree {callee : Ident} {arguments : List Tree} (ht : tokens[n]? = some t)
    (h : Laid tokens n (before ++ nameOf callee :: trees arguments)) :
    Laid tokens (n + 1) (before ++ [.tree (callTree callee arguments t)]) := by
  -- the parenthesis is a piece for as long as it takes to say where the call stops
  have hstop := h.take (.stop ht)
  rw [List.append_assoc] at hstop
  refine hstop.reduce rfl ?_ ?_
  · rw [List.getLast?_concat]
    rfl
  · simp [List.filterMap_cons, Piece.tree?, Tree.children, nameOf, callTree]

/-- A list reaches from bracket to bracket, and its assignment from the name to the second of them.
-/
theorem laid_listAssignment {target : Ident} {opened : Position} {items : List Tree}
    (ht : tokens[n]? = some t)
    (h : Laid tokens n (before ++ nameOf target :: .start opened :: trees items)) :
    Laid tokens (n + 1) (before ++ [.tree (listAssignment target opened items t)]) := by
  have hstop := h.take (.stop ht)
  rw [List.append_cons before, List.append_assoc] at hstop
  have hlist : Laid tokens (n + 1)
      (before ++ [nameOf target] ++ [.tree (.list ⟨opened, t.span.stop⟩ items)]) := by
    refine hstop.reduce rfl ?_ ?_
    · rw [List.getLast?_concat]
      rfl
    · simp [List.filterMap_cons, Piece.tree?, Tree.children, Tree.parts]
  -- the list is one tree now, and the assignment is made up of the name and of it
  rw [List.append_assoc] at hlist
  exact hlist.reduce rfl rfl rfl

/-- An `if` and a `while` are laid alike. -/
theorem pieces_guardHead (guard : Guard) (start : Position) (condition : Tree) :
    (guard.head start condition).pieces = [.start start, .tree condition] := by
  cases guard <;> rfl

/-- The token behind a complete expression lies behind it. -/
theorem Purpose.Takes.laid {e : Tree} {move : Move} (htakes : purpose.Takes t e move)
    (ht : tokens[n]? = some t) (h : Laid tokens n (before ++ (purpose.pieces ++ [.tree e]))) :
    move.Laid tokens n before := by
  cases htakes with
  | statement => exact h
  | assigned target => exact h.reduce rfl rfl rfl
  | lastItem target opened items hk =>
    refine laid_listAssignment ht ?_
    rw [trees_append]
    exact h
  | comparand guard start op left hk =>
    -- the word before the condition stays, and the two sides behind it make up the condition
    rw [Move.Laid, pieces_guardHead, List.append_cons]
    rw [Purpose.pieces, List.cons_append, List.append_cons] at h
    exact h.reduce rfl rfl rfl
  | printed start hk =>
    have hstop := h.take (.stop ht)
    rw [List.append_assoc] at hstop
    exact hstop.reduce rfl rfl rfl
  | _ => simpa [Move.Laid, Phase.pieces, piecesOpen, Purpose.pieces] using h.skip

/-- The token behind an operand lies behind it, whatever the operators make up before. -/
theorem TakesAfter.laid {operand : Tree} {move : Move}
    (htakes : TakesAfter t purpose waiting operand move) (ht : tokens[n]? = some t)
    (h : Laid tokens n (before ++ (piecesOpen purpose waiting ++ [.tree operand]))) :
    move.Laid tokens n before := by
  rw [← List.append_assoc] at h
  cases htakes with
  | operator _ hgive =>
    have hgiven := laid_giveOperand h hgive
    rw [List.append_assoc] at hgiven
    exact hgiven.skip
  -- a parenthesis that groups and a comma are no pieces
  | closesGroup _ hgive =>
    simpa [Move.Laid, Phase.pieces, piecesOpen, Waiting.pieces] using
      (laid_giveOperand h hgive).skip
  | nextArgument _ hgive =>
    simpa [Move.Laid, Phase.pieces, piecesOpen, Waiting.pieces] using
      (laid_giveOperand h hgive).skip
  | @closesCall callee arguments rest e _ hgive =>
    have hcall : Laid tokens n (before ++ piecesOpen purpose rest
        ++ nameOf callee :: trees (arguments ++ [e])) := by
      simpa [piecesOpen, Waiting.pieces] using laid_giveOperand h hgive
    rw [Move.Laid, Phase.pieces, ← List.append_assoc]
    exact laid_callTree ht hcall
  | expression hgive htakes =>
    have hgiven := laid_giveOperand h hgive
    rw [List.append_assoc] at hgiven
    exact htakes.laid ht hgiven

/-- An operand lies behind what its phase holds. -/
theorem Phase.Awaits.pieces {phase : Phase} (h : phase.Awaits purpose waiting) :
    piecesOpen purpose waiting = phase.pieces := by
  cases h <;> rfl

/-! ## Tokens -/

/-- Every token that is taken lies behind what the phase holds. -/
theorem Phase.Takes.laid {phase : Phase} {move : Move} (htakes : phase.Takes t move)
    (ht : tokens[n]? = some t) (h : Laid tokens n (before ++ phase.pieces)) :
    move.Laid tokens n before := by
  -- a word that starts a statement is the only piece of it
  have hword : phase = .statement → Laid tokens (n + 1) (before ++ [.start t.span.start]) := by
    rintro rfl
    rw [Phase.pieces, List.append_nil] at h
    exact h.take (.start ht)
  cases htakes with
  | guard => exact hword rfl
  | wordFor => exact hword rfl
  | wordPrint => exact hword rfl
  | operand hawaits hstart =>
    rw [← hawaits.pieces] at h
    exact laid_startOperand? ht h hstart
  | afterName _ htakes => exact htakes.laid ht h
  | afterOperand htakes => exact htakes.laid ht h
  | noArguments =>
    rw [Phase.pieces, ← List.append_assoc] at h
    rw [Move.Laid, Phase.pieces, ← List.append_assoc]
    exact laid_callTree ht h
  | opensList =>
    rw [Move.Laid, Phase.pieces, List.append_cons]
    exact h.take (.start ht)
  | noItems => exact laid_listAssignment ht h
  | iterator =>
    rw [Move.Laid, Phase.pieces, List.append_cons]
    exact h.take_leaf ht rfl rfl
  | opensLoop => exact h
  | opensElse => exact h
  | stated => exact h
  -- the token is no piece
  | _ => exact h.skip

/-- What a configuration holds lies on the tokens that have been read, also with one token more. -/
theorem laid_advance? (hc : c.Laid tokens n) (ht : tokens[n]? = some t)
    (h : c.advance? t = some c') : c'.Laid tokens (n + 1) := by
  obtain ⟨nest, phase, move, rfl, htakes, hrun⟩ := exists_takes h
  exact (htakes.laid ht hc).run hrun

/-- Whatever the parser has read, what it holds lies on the tokens in turn. -/
theorem laid_read? {read : List Token} (h : Config.start.read? read = some c)
    (hread : read <+: tokens) : c.Laid tokens read.length := by
  refine start_read?_induction (P := fun read c => read <+: tokens → c.Laid tokens read.length)
    (fun _ => .nil le_rfl) ?_ h hread
  intro read c t c' ih hstep hread
  have ht : tokens[read.length]? = some t := by
    obtain ⟨rest, rfl⟩ := hread
    simp
  rw [List.length_append, List.length_singleton]
  exact laid_advance? (ih ((List.prefix_append read [t]).trans hread)) ht hstep

end Parser

/-- A parsed program was read from the tokens before the end of input, and all its nodes from
stretches of them. -/
theorem readFrom_of_parse {tokens : List Token} {program : Program}
    (h : parse tokens = .ok program) : ∃ body stop i j, tokens = body ++ [stop]
      ∧ stop.kind = .endOfInput ∧ j ≤ body.length ∧ program.toTree.ReadFrom tokens i j := by
  obtain ⟨body, stop, c, rfl, hbody, hstop⟩ := Parser.exists_last h
  have hlaid : Parser.Laid (body ++ [stop]) body.length [.tree program.toTree] :=
    Parser.laid_advance? (Parser.laid_read? hbody (List.prefix_append body [stop])) (by simp) hstop
  cases hlaid with
  | cons _ hread hend =>
    cases hread with
    | tree hread =>
      cases hend with
      | nil hle => exact ⟨body, stop, _, _, rfl, (Parser.exists_completes hstop).1, hle, hread⟩

end Plume
