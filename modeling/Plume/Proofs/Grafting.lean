import Plume.Proofs.Layout
import Plume.Proofs.Shape

/-!
# More statements behind a program

What follows a program behind a `;` goes into its innermost open body. `graftAll` says this of
trees: behind a statement without a body the new statements are put in sequence, and behind one with
a body they go into its last body.

## Shape of the proof

What a token does is the same in all surroundings (`exists_move`): it goes on inside a statement,
opens a body or completes a statement. So tokens that can be read on their own can be read inside
the bodies that another program has left open, and lead to the same place inside of them
(`read?_inside`). Where both programs end, all bodies are closed at once, and `closeAll_graft` finds
the statements of the second one in the innermost of the first.
-/

namespace Plume

/-! ## Grafting -/

namespace Tree

/-- The statements that a body consists of. -/
def statementsOf : Tree → List Tree
  | .block _ statements => statements
  | s => [s]

/-- Statements as a body: a single one is the body itself. -/
def asBody : List Tree → Tree
  | [s] => s
  | statements => .block .blank statements

mutual

/-- A body with more statements put into it, behind all that it holds. In a statement they go into
its last body, the one behind `else` if there is one. -/
def graft : Tree → List Tree → Tree
  | .ifThen span condition body, more => .ifThen span condition (graft body more)
  | .ifElse span condition body otherwise, more =>
    .ifElse span condition body (graft otherwise more)
  | .forRange span iterator first stop body, more =>
    .forRange span iterator first stop (graft body more)
  | .whileLoop span condition body, more => .whileLoop span condition (graft body more)
  | .block _ statements, more => asBody (graftAll statements more)
  | s, more => asBody (s :: more)

/-- A sequence with more statements behind it, or in the last body of its last statement if that has
one. -/
def graftAll : List Tree → List Tree → List Tree
  | [], more => more
  | [last], more => if last.isCompound then [graft last more] else last :: more
  | first :: rest, more => first :: graftAll rest more

end

/-- Only the last statement of a sequence matters to what is put behind it. -/
theorem graftAll_append_singleton (init : List Tree) (last : Tree) (more : List Tree) :
    graftAll (init ++ [last]) more
      = init ++ if last.isCompound then [last.graft more] else last :: more := by
  induction init with
  | nil => rw [List.nil_append, graftAll, List.nil_append]
  | cons first rest ih =>
    rw [List.cons_append, List.cons_append, ← ih, graftAll]
    simp

/-- A body with more statements is the body made of its own statements with more behind them. -/
theorem graft_eq (body : Tree) (more : List Tree) :
    body.graft more = asBody (graftAll body.statementsOf more) := by
  cases body <;> simp [graft, statementsOf, graftAll, isCompound, asBody]

/-- Whether statements are put into a block does not depend on their spans. -/
@[simp]
theorem bare_asBody (statements : List Tree) :
    (asBody statements).bare = asBody (statements.map bare) := by
  match statements with
  | [] => rfl
  | [s] => rfl
  | first :: second :: rest => simp [asBody, bare]

end Tree

namespace Parser

open Plume.Tree

variable {c c' : Config} {t : Token} {nest around : Nest} {phase : Phase} {program : Program}

/-! ## Reading inside other bodies -/

/-- The sequences `before` and `outer` inside of others that are already open: what is outermost
goes on with the innermost of the others. -/
def nestInside (around : Nest) (before : List Tree) : List OpenBody → Nest
  | [] => ⟨around.before ++ before, around.outer⟩
  | b :: outer =>
    let rest := nestInside around b.before outer
    ⟨before, ⟨b.head, rest.before⟩ :: rest.outer⟩

/-- Open sequences inside of others. -/
def Nest.inside (around nest : Nest) : Nest := nestInside around nest.before nest.outer

/-- A statement joins the innermost sequence, inside of others as well. -/
theorem inside_push (around nest : Nest) (s : Tree) :
    around.inside ⟨nest.before ++ [s], nest.outer⟩
      = ⟨(around.inside nest).before ++ [s], (around.inside nest).outer⟩ := by
  obtain ⟨before, outer⟩ := nest
  cases outer with
  | nil => simp [Nest.inside, nestInside]
  | cons b outer => rfl

/-- An `else` that finds its `if` finds the same one inside. -/
theorem closeToElse_inside (around : Nest) {outer : List OpenBody} {before : List Tree}
    {last : Tree}
    (h : closeToElse outer before last = some (.reading nest phase)) :
    closeToElse (nestInside around before outer).outer (nestInside around before outer).before last
      = some (.reading (around.inside nest) phase) := by
  induction outer generalizing before last with
  | nil => cases h
  | cons b outer ih =>
    obtain ⟨head, before'⟩ := b
    cases head with
    | ifThen start condition =>
      cases h
      rfl
    | _ => exact ih h

/-- The end of input closes the bodies inside first. -/
theorem closeAll_inside (around : Nest) (outer : List OpenBody) (before : List Tree) (last : Tree) :
    ∃ init last', (closeAll outer before last).statements = init ++ [last']
      ∧ closeAll (nestInside around before outer).outer (nestInside around before outer).before last
        = closeAll around.outer (around.before ++ init) last' := by
  induction outer generalizing before last with
  | nil => exact ⟨before, last, rfl, rfl⟩
  | cons b outer ih => exact ih b.before (b.head.complete (bodyOf before last))

/-- The token behind a statement does the same inside of other bodies. -/
theorem afterStatement?_inside (around : Nest) {nest nest' : Nest} {s : Tree}
    (h : afterStatement? nest s t = some (.reading nest' phase)) :
    afterStatement? (around.inside nest) s t = some (.reading (around.inside nest') phase) := by
  cases hk : t.kind with
  | semicolon =>
    simp only [afterStatement?, hk] at h ⊢
    cases h
    rw [inside_push]
  | wordElse =>
    simp only [afterStatement?, hk] at h ⊢
    exact closeToElse_inside around h
  | _ => simp [afterStatement?, hk] at h

/-- A token that does not end the program does the same inside of other bodies. -/
theorem advance?_inside (around : Nest) {nest nest' : Nest} {phase phase' : Phase}
    (h : phase.advance? nest t = some (.reading nest' phase')) :
    phase.advance? (around.inside nest) t = some (.reading (around.inside nest') phase') := by
  obtain ⟨move, -, hrun⟩ := exists_move h
  rw [hrun] at h ⊢
  cases move with
  | goesOn next =>
    cases h
    rfl
  | opens head =>
    cases h
    rfl
  | completes s => exact afterStatement?_inside around h

/-- Tokens that can be read on their own can be read inside open bodies. -/
theorem read?_inside (around : Nest) {tokens : List Token} {nest nest' : Nest}
    {phase phase' : Phase}
    (h : (Config.reading nest phase).read? tokens = some (.reading nest' phase')) :
    (Config.reading (around.inside nest) phase).read? tokens
      = some (.reading (around.inside nest') phase') := by
  induction tokens generalizing nest phase with
  | nil =>
    cases h
    rfl
  | cons t rest ih =>
    rw [read?_cons, Option.bind_eq_some_iff] at h
    obtain ⟨next, hnext, hrest⟩ := h
    cases next with
    | reading nest₁ phase₁ =>
      rw [read?_cons, Config.advance?, advance?_inside around hnext]
      exact ih hrest
    | finished program =>
      -- nothing follows the end of input
      cases rest <;> cases hrest

/-- A program that ends on its own ends inside open bodies, and closes them. -/
theorem advance?_inside_finished (around : Nest)
    (h : phase.advance? nest t = some (.finished program)) :
    ∃ init last, program.statements = init ++ [last]
      ∧ phase.advance? (around.inside nest) t
        = some (.finished (closeAll around.outer (around.before ++ init) last)) := by
  obtain ⟨move, -, hrun⟩ := exists_move h
  rw [hrun] at h ⊢
  cases move with
  | goesOn next => cases h
  | opens head => cases h
  | completes s =>
    obtain ⟨hk, rfl⟩ := afterStatement?_eq_finished h
    obtain ⟨init, last, hstatements, hclose⟩ :=
      closeAll_inside around nest.outer nest.before s
    refine ⟨init, last, hstatements, ?_⟩
    rw [Move.run, afterStatement?_endOfInput s hk]
    exact congrArg (some ∘ Config.finished) hclose

/-! ## Closing bodies that hold more -/

/-- A body consists of the statements that it was made of. -/
theorem statementsOf_bodyOf (before : List Tree) (last : Tree)
    (hlast : ∀ span statements, last ≠ .block span statements) :
    (bodyOf before last).statementsOf = before ++ [last] := by
  cases before with
  | nil => cases last <;> simp_all [bodyOf, statementsOf]
  | cons first more => rfl

/-- Without spans, a sequence as a body is its statements as a body. -/
theorem bare_bodyOf (before : List Tree) (last : Tree) :
    (bodyOf before last).bare = asBody ((before ++ [last]).map Tree.bare) := by
  match before with
  | [] => rfl
  | [first] => simp [bodyOf, asBody, Tree.bare]
  | first :: second :: rest => simp [bodyOf, asBody, Tree.bare]

theorem isCompound_complete (head : Head) (body : Tree) :
    (head.complete body).isCompound = true := by
  cases head <;> rfl

theorem complete_ne_block (head : Head) (body : Tree) (span : Span) (statements : List Tree) :
    head.complete body ≠ .block span statements := by
  cases head <;> exact nofun

/-- The last body of a statement that has just been completed is the one that completed it. -/
theorem bare_graft_complete (head : Head) (body : Tree) (more : List Tree) :
    ((head.complete body).graft more).bare = (head.complete (body.graft more)).bare := by
  cases head <;> rfl

/-- If the innermost sequence is as it was with more statements grafted onto it, so is the program,
once all bodies are closed. -/
theorem closeAll_graft {outer : List OpenBody} {before before' more : List Tree} {last last' : Tree}
    (hlast : ∀ span statements, last ≠ .block span statements)
    (h : (before' ++ [last']).map Tree.bare = (graftAll (before ++ [last]) more).map Tree.bare) :
    (closeAll outer before' last').statements.map Tree.bare
      = (graftAll (closeAll outer before last).statements more).map Tree.bare := by
  induction outer generalizing before before' last last' with
  | nil => exact h
  | cons b outer ih =>
    obtain ⟨head, around⟩ := b
    -- the statement that this body completes is the last of the sequence around it
    refine ih (complete_ne_block head _) ?_
    have hbody : ((bodyOf before last).graft more).bare = (bodyOf before' last').bare := by
      rw [graft_eq, statementsOf_bodyOf before last hlast, bare_asBody, ← h, bare_bodyOf]
    rw [graftAll_append_singleton, if_pos (isCompound_complete head _), List.map_append,
      List.map_append, List.map_singleton, List.map_singleton, bare_graft_complete,
      ← complete_bare, ← complete_bare, hbody]

end Parser

open Plume.Parser in
/-- Two token lists that make up programs make up one program if they are joined by a `;` in place
of the first end of input. -/
theorem parse_join {first second : List Token} {p q : Program} {stop semicolon : Token}
    (hfirst : parse (first ++ [stop]) = .ok p) (hsecond : parse second = .ok q)
    (hsemicolon : semicolon.kind = .semicolon) :
    ∃ joined, parse (first ++ semicolon :: second) = .ok joined
      ∧ joined.statements.map Tree.bare
        = (Tree.graftAll p.statements q.statements).map Tree.bare := by
  obtain ⟨body, stop', c, heq, hread, hstop⟩ := exists_last hfirst
  obtain ⟨rfl, -⟩ := List.append_singleton_inj.mp heq
  obtain ⟨-, nest, s, hcompletes, rfl⟩ := exists_completes hstop
  -- the `;` leaves the bodies open in which the first program ended
  let around : Nest := ⟨nest.before ++ [s], nest.outer⟩
  have hopen : c.advance? semicolon = some (.reading around .statement) := by
    rw [hcompletes semicolon (.inl hsemicolon), afterStatement?, hsemicolon]
  have hsimple : s.IsSimple := by
    have hsound := advance?_sound (read?_sound hread) hopen
    exact hsound.1.before s (by simp [around])
  -- so the second program is read inside of them, and its end closes them all
  obtain ⟨body₂, stop₂, c₂, rfl, hread₂, hstop₂⟩ := exists_last hsecond
  cases c₂ with
  | finished program => cases hstop₂
  | reading nest₂ phase₂ =>
    have hinside := read?_inside around hread₂
    have haround : around.inside ⟨[], []⟩ = around := by simp [Nest.inside, nestInside]
    obtain ⟨init, last, hstatements, hclose⟩ := advance?_inside_finished around hstop₂
    refine ⟨closeAll nest.outer (nest.before ++ [s] ++ init) last, ?_, ?_⟩
    · refine parseFrom_eq_ok.mpr ?_
      rw [read?_append, hread, Option.bind_some, read?_cons, hopen, Option.bind_some, read?_append]
      rw [haround] at hinside
      rw [hinside, Option.bind_some, read?_cons, Config.advance?, hclose]
      rfl
    · refine closeAll_graft hsimple.statement.ne_block ?_
      rw [hstatements, Tree.graftAll_append_singleton, hsimple.notCompound]
      simp

end Plume
