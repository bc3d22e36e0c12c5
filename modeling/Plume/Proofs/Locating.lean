import Plume.Proofs.Acceptance
import Plume.Proofs.Nesting
import Plume.Proofs.Provenance

/-!
# Where diagnostics point

Every diagnostic of a script points into its source: a lexical one at a unit of a line, a syntax
error at the start of the token that it reports, and an error of the run at the start of a token
(`Diagnostic.PointsInto`). The last of these comes down from the tokens through the tree: a run
reports the start of a node, and a node starts where its first token does.
-/

namespace Plume

/-- The diagnostic points into the source, in the way of its kind. -/
structure Diagnostic.PointsInto (source : Text) (d : Diagnostic) : Prop where
  line : 1 ≤ d.position.line ∧ d.position.line ≤ source.lines.length
  lexical : d.problem.kind = .lexical → ∃ text, source.lines[d.position.line - 1]? = some text
    ∧ 1 ≤ d.position.column ∧ d.position.column ≤ text.length
  syntactic : d.problem.kind = .grammatical → ∃ t ∈ (tokenize source).tokens, d.Reports t
  runtime : d.problem.kind ≠ .lexical → d.problem.kind ≠ .grammatical →
    ∃ t ∈ (tokenize source).tokens, t.kind ≠ .endOfInput ∧ d.position = t.span.start

variable {source : Text} {t : Token} {d : Diagnostic}

/-! ## Tokens and lexical errors -/

/-- A token starts on a line of the source. -/
theorem Token.line_of_mem_tokenize (h : t ∈ (tokenize source).tokens) :
    1 ≤ t.span.start.line ∧ t.span.start.line ≤ source.lines.length := by
  obtain ⟨k, text, htext, before, after, -, hspan⟩ := exists_isSliceOf h
  rw [hspan]
  exact ⟨Nat.le_add_left 1 k, (List.getElem?_eq_some_iff.mp htext).1⟩

/-- An error of the scanner points into the source. -/
theorem Diagnostic.pointsInto_of_mem_errors (h : d ∈ (tokenize source).errors) :
    d.PointsInto source := by
  obtain ⟨k, text, htext, hlexical, j, hj, hposition⟩ := Token.mem_errors_tokenize h
  refine ⟨?_, fun _ => ⟨text, ?_, ?_⟩, fun hkind => ?_, fun hkind => absurd hlexical hkind⟩
  · rw [hposition]
    exact ⟨Nat.le_add_left 1 k, (List.getElem?_eq_some_iff.mp htext).1⟩
  · rw [hposition]
    exact htext
  · rw [hposition]
    exact ⟨Nat.le_add_right 1 j, Nat.one_add j ▸ hj⟩
  · rw [hlexical] at hkind
    cases hkind

/-! ## Syntax errors and errors of the run -/

/-- An error at a token points into the source. -/
theorem Diagnostic.Reports.pointsInto (h : d.Reports t) (ht : t ∈ (tokenize source).tokens) :
    d.PointsInto source where
  line := h.position ▸ Token.line_of_mem_tokenize ht
  lexical hkind := by
    rw [h.kind] at hkind
    cases hkind
  syntactic _ := ⟨t, ht, h⟩
  runtime _ hkind := absurd h.kind hkind

/-- A node of a parsed tree starts where one of the tokens before the end of input does. -/
theorem Script.exists_token_of_isNode {p : Program} {n : Tree} (h : Script.parse source = .ok p)
    (hn : Tree.IsNode n p.toTree) :
    ∃ t ∈ (tokenize source).tokens, t.kind ≠ .endOfInput ∧ n.span.start = t.span.start := by
  obtain ⟨i, j, hread, hkinds⟩ := Script.exists_readFrom h hn.occursIn
  cases hread with
  | @node _ _ k first _ hfirst _ hik hspan =>
    refine ⟨first, List.mem_of_getElem? hfirst, hkinds i (Nat.lt_succ_of_le hik) first hfirst, ?_⟩
    rw [hspan]
    rfl

/-- An error of a run points into the source that the program was parsed from. -/
theorem Program.pointsInto_of_run {p : Program} {fuel : Nat} {builtins : Builtins}
    {env : Environment} {r : RunResult} (hparse : Script.parse source = .ok p)
    (h : p.run fuel builtins env = .ok r) (hd : r.error = some d) : d.PointsInto source := by
  obtain ⟨n, hn, hcause⟩ := Program.exists_canCause h hd
  obtain ⟨m, hm, hposition⟩ := hcause.exists_start
  obtain ⟨hlexical, hgrammatical⟩ := hcause.kind_ne
  obtain ⟨t, ht, hkind, hstart⟩ := Script.exists_token_of_isNode hparse (hm.trans hn)
  have htoken : d.position = t.span.start := hposition.trans hstart
  exact ⟨htoken ▸ Token.line_of_mem_tokenize ht, fun h => absurd h hlexical,
    fun h => absurd h hgrammatical, fun _ _ => ⟨t, ht, hkind, htoken⟩⟩

/-! ## Scripts -/

namespace Script

/-- An error of the parser points into the source. -/
theorem pointsInto_of_parse_eq_error (h : parse source = .error d) : d.PointsInto source := by
  rw [parse] at h
  cases herrors : (tokenize source).errors with
  | cons e rest =>
    rw [herrors] at h
    cases h
    exact Diagnostic.pointsInto_of_mem_errors (herrors ▸ List.mem_cons_self)
  | nil =>
    rw [herrors] at h
    obtain ⟨last, hlast⟩ := Token.exists_last_line source
    obtain ⟨before, t, hfirst, hreports⟩ :=
      firstImpossible_of_parse_error (Token.terminated_tokenize hlast) h
    exact hreports.pointsInto (hfirst.begins.subset (by simp))

/-- Of several lexical errors the first is the one that is reported. -/
theorem exists_first_error (h : (tokenize source).errors ≠ []) :
    ∃ d ∈ (tokenize source).errors,
      (∀ e ∈ (tokenize source).errors, e ≠ d → d.position < e.position)
        ∧ parse source = .error d := by
  have hpairwise := Token.pairwise_errors_tokenize source
  rw [parse]
  cases herrors : (tokenize source).errors with
  | nil => exact absurd herrors h
  | cons d rest =>
    rw [herrors, List.pairwise_cons] at hpairwise
    refine ⟨d, List.mem_cons_self, fun e he hne => ?_, rfl⟩
    exact hpairwise.1 e ((List.mem_cons.mp he).resolve_left hne)

/-- Every diagnostic that a run returns with points into the source. If there are lexical errors,
the run returns with the one of them that comes first in the source. -/
theorem run_pointsInto (source : Text) :
    (∀ fuel builtins env r d, run fuel builtins env source = .ok r → r.error = some d →
      d.PointsInto source)
    ∧ ((tokenize source).errors ≠ [] → ∃ d ∈ (tokenize source).errors,
        (∀ e ∈ (tokenize source).errors, e ≠ d → d.position < e.position)
          ∧ ∀ fuel builtins env, run fuel builtins env source = .ok ⟨[], some d, env, none⟩) := by
  constructor
  · intro fuel builtins env r d h hd
    rw [run] at h
    -- the error is one of the parser, or comes of a node of the program
    cases hparse : parse source with
    | error e =>
      rw [hparse] at h
      cases h
      cases hd
      exact pointsInto_of_parse_eq_error hparse
    | ok p =>
      rw [hparse] at h
      exact Program.pointsInto_of_run hparse h hd
  · intro herrors
    obtain ⟨d, hd, hfirst, hparse⟩ := exists_first_error herrors
    refine ⟨d, hd, hfirst, fun fuel builtins env => ?_⟩
    rw [run, hparse]

/-- A sum of an integer and a string inside of parentheses, on the second line. -/
def groupedSum : Text := Text.joinLines ["a = 1;", "print(2 - (a + \"b\"))"]

/-- A unit that starts no token, and on the next line a quote without another one. -/
def twoErrors : Text := Text.joinLines ["a ? b", "c = \"d"]

theorem run_pointsInto_groupedSum :
    (∃ r, run 0 .standard .empty groupedSum = .ok r
      ∧ r.error = some ⟨.unsupportedOperands .add .int .str, ⟨2, 12⟩⟩
      ∧ Diagnostic.PointsInto groupedSum ⟨.unsupportedOperands .add .int .str, ⟨2, 12⟩⟩)
    ∧ (tokenize twoErrors).errors
      = [⟨.illegalCharacter 0x3F, ⟨1, 3⟩⟩, ⟨.unterminatedString, ⟨2, 5⟩⟩]
    ∧ ∃ d ∈ (tokenize twoErrors).errors,
      (∀ e ∈ (tokenize twoErrors).errors, e ≠ d → d.position < e.position)
        ∧ ∀ fuel builtins env,
          run fuel builtins env twoErrors = .ok ⟨[], some d, env, none⟩ := by
  obtain ⟨whole, assign, target, one, print, difference, two, stop, a, b, hparse⟩ :
      ∃ whole assign target one print difference two stop a b,
        parse groupedSum = .ok ⟨whole, [
          .assign assign ⟨target, "a"⟩ (.number one (.int 1)),
          .print print (.binary difference (.arithmetic .sub) (.number two (.int 2))
            (.binary ⟨⟨2, 12⟩, stop⟩ (.arithmetic .add) (.reference a "a") (.string b "b")))]⟩ :=
    ⟨_, _, _, _, _, _, _, _, _, _, rfl⟩
  have hrun : run 0 .standard .empty groupedSum
      = .ok ⟨[], some ⟨.unsupportedOperands .add .int .str, ⟨2, 12⟩⟩,
          .insert .empty "a" (.int 1), none⟩ := by
    rw [run, hparse]
    rfl
  have herrors : (tokenize twoErrors).errors
      = [⟨.illegalCharacter 0x3F, ⟨1, 3⟩⟩, ⟨.unterminatedString, ⟨2, 5⟩⟩] := rfl
  refine ⟨⟨_, hrun, rfl, (run_pointsInto groupedSum).1 _ _ _ _ _ hrun rfl⟩, herrors, ?_⟩
  exact (run_pointsInto twoErrors).2 (herrors ▸ List.cons_ne_nil _ _)

end Script

end Plume
