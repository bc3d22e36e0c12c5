import Plume.Proofs.Acceptance
import Plume.Proofs.Joining
import Plume.Proofs.Lossless
import Plume.Proofs.Munching
import Plume.Proofs.Provenance

/-!
# What a script does does not depend on its layout

Two sources whose tokens are spelled alike are the same script, wherever the tokens stand: both
parse or neither does, the trees differ in their places only, the runs do the same, and where
neither parses the syntax errors are at one and the same token (`Script.parse_of_texts_eq`).

## Shape of the proof

A run carries the places of its tree along, into its diagnostic, and never looks at them. So taking
the places away before the run is taking them away after it: `eval_bare` for expressions,
`exec_bare` for statements, with `forEach_mapError` and `repeatWhile_mapError` for the rounds of
loops, and `run_bare` for programs. Trees that are the same without their places run alike for this
reason. A diagnostic of a run keeps its message without its place, since only syntax errors name a
line.

The spelling of a token fixes its kind (`Lexicon.Denotes.unique`), and the kinds of the tokens fix
which of them is the first impossible one (`FirstImpossible.viable_take_iff`).
-/

namespace Plume

/-! ## Diagnostics without their places -/

/-- A diagnostic without its place. -/
def Diagnostic.bare (d : Diagnostic) : Diagnostic := ⟨d.problem, Span.blank.start⟩

/-- A stop without its place. -/
def Stop.bare : Stop Diagnostic → Stop Diagnostic
  | .problem d => .problem d.bare
  | .fault f => .fault f

/-- A halt without its place. -/
def Halt.bare (h : Halt) : Halt := ⟨h.cause.map Diagnostic.bare, h.state⟩

/-- A result without the place of its diagnostic. -/
def RunResult.bare (r : RunResult) : RunResult := { r with error := r.error.map Diagnostic.bare }

section MapError

variable {ε ε' α β : Type} {g : ε → ε'}

/-- Two steps that differ only in how failures are told differ only in that together. -/
theorem bind_mapError {x : Except ε α} {x' : Except ε' α} {f : α → Except ε β}
    {f' : α → Except ε' β} (hx : x' = x.mapError g) (hf : ∀ a, f' a = (f a).mapError g) :
    x' >>= f' = (x >>= f).mapError g := by
  subst hx
  cases x with
  | error e => rfl
  | ok a => exact hf a

/-- A failure without its place does not depend on the place. -/
theorem mapError_located (x : Except (Stop Problem) α) (position : Position) :
    x.mapError (Stop.located Span.blank.start)
      = (x.mapError (Stop.located position)).mapError Stop.bare := by
  cases x with
  | ok a => rfl
  | error stop => cases stop <;> rfl

end MapError

/-! ## Expressions -/

namespace Tree

variable {builtins : Builtins}

mutual

/-- An expression without its places has the same value, or stops for the same reason. -/
theorem eval_bare (env : Environment) :
    ∀ e : Tree, e.bare.eval builtins env = (e.eval builtins env).mapError Stop.bare
  | .number .. | .boolean .. | .string .. => by
    simp only [bare, eval]
    rfl
  | .reference span name => by
    rw [bare, eval, eval]
    cases env.get? name <;> rfl
  | .binary span op left right => by
    rw [bare, eval, eval]
    refine bind_mapError (eval_bare env left) fun a => ?_
    refine bind_mapError (eval_bare env right) fun b => ?_
    exact mapError_located (Value.operate op a b) span.start
  | .list span items => by
    rw [bare, eval, eval]
    exact bind_mapError (evalAll_bare env items) fun _ => rfl
  | .call span callee arguments => by
    rw [bare, eval, eval]
    have hname : callee.bare.name = callee.name := rfl
    rw [hname]
    cases builtins.get? callee.name with
    | none => rfl
    | some f =>
      refine bind_mapError (evalAll_bare env arguments) fun values => ?_
      cases f.apply callee.name values <;> rfl
  -- a statement inside an expression is a fault without a place
  | .block .. | .assign .. | .ifThen .. | .ifElse .. | .forRange .. | .whileLoop ..
  | .print .. => by
    simp only [bare, eval]
    rfl

/-- Without spans, values are the same and failures have no place. -/
theorem evalAll_bare (env : Environment) :
    ∀ es : List Tree,
      evalAll builtins env (bareAll es) = (evalAll builtins env es).mapError Stop.bare
  | [] => by
    rw [bareAll, evalAll]
    rfl
  | e :: rest => by
    rw [bareAll, evalAll, evalAll]
    refine bind_mapError (eval_bare env e) fun v => ?_
    exact bind_mapError (evalAll_bare env rest) fun _ => rfl

end

end Tree

/-! ## Statements -/

namespace State

variable {builtins : Builtins} (s : State)

/-- In a state as in an environment, an expression has the same value without spans. -/
theorem eval_bare (e : Tree) :
    s.eval builtins e.bare = (s.eval builtins e).mapError Halt.bare := by
  rw [State.eval, State.eval, Tree.eval_bare]
  cases e.eval builtins s.environment with
  | ok v => rfl
  | error stop => cases stop <;> rfl

theorem test_bare (condition : Tree) :
    s.test builtins condition.bare = (s.test builtins condition).mapError Halt.bare :=
  bind_mapError (s.eval_bare condition) fun _ => rfl

theorem bound_bare (e : Tree) :
    s.bound builtins e.bare = (s.bound builtins e).mapError Halt.bare := by
  refine bind_mapError (s.eval_bare e) fun v => ?_
  rw [Tree.span_bare]
  cases v.integer? <;> rfl

end State

/-- Rounds that differ only in how failures are told differ only in that together. -/
theorem forEach_mapError {g : Halt → Halt} {body body' : Int → State → Except Halt State}
    (hbody : ∀ i s, body' i s = (body i s).mapError g) (count : Nat) (i : Int) (s : State) :
    forEach body' count i s = (forEach body count i s).mapError g := by
  induction count generalizing i s with
  | zero => rfl
  | succ count ih => exact bind_mapError (hbody i s) fun s => ih (i + 1) s

/-- The same of a loop, where running out of fuel is told in one way. -/
theorem repeatWhile_mapError {g : Halt → Halt} {test test' : State → Except Halt Bool}
    {body body' : State → Except Halt State}
    (hfuel : ∀ s, g ⟨.error .outOfFuel, s⟩ = ⟨.error .outOfFuel, s⟩)
    (htest : ∀ s, test' s = (test s).mapError g) (hbody : ∀ s, body' s = (body s).mapError g)
    (fuel : Nat) (s : State) :
    repeatWhile test' body' fuel s = (repeatWhile test body fuel s).mapError g := by
  induction fuel generalizing s with
  | zero => exact congrArg Except.error (hfuel s).symm
  | succ fuel ih =>
    refine bind_mapError (htest s) fun holds => ?_
    cases holds with
    | false => rfl
    | true => exact bind_mapError (hbody s) ih

namespace Tree

variable {builtins : Builtins} {fuel : Nat}

mutual

/-- A statement without its places does the same, or halts for the same reason. -/
theorem exec_bare : ∀ (t : Tree) (s : State),
    exec builtins fuel t.bare s = (exec builtins fuel t s).mapError Halt.bare
  | .block span statements, s => by
    rw [bare, exec, exec]
    exact bind_mapError (execAll_bare statements s none) fun _ => rfl
  | .assign span target value, s => by
    rw [bare, exec, exec]
    exact bind_mapError (s.eval_bare value) fun _ => rfl
  | .ifThen span condition body, s => by
    rw [bare, exec, exec]
    refine bind_mapError (s.test_bare condition) fun holds => ?_
    cases holds with
    | true => exact bind_mapError (exec_bare body s) fun _ => rfl
    | false => rfl
  | .ifElse span condition body otherwise, s => by
    rw [bare, exec, exec]
    refine bind_mapError (s.test_bare condition) fun holds => ?_
    cases holds with
    | true => exact bind_mapError (exec_bare body s) fun _ => rfl
    | false => exact bind_mapError (exec_bare otherwise s) fun _ => rfl
  -- the places in the bounds and in the body may differ, and nothing else does
  | .forRange span iterator first stop body, s => by
    rw [bare, exec, exec]
    refine bind_mapError (s.bound_bare first) fun a => ?_
    refine bind_mapError (s.bound_bare stop) fun z => ?_
    refine bind_mapError (forEach_mapError (fun i s => ?_) _ a s) fun _ => rfl
    exact bind_mapError (exec_bare body _) fun _ => rfl
  | .whileLoop span condition body, s => by
    rw [bare, exec, exec]
    refine bind_mapError (repeatWhile_mapError (fun _ => rfl) (fun s => s.test_bare condition)
      (fun s => ?_) fuel s) fun _ => rfl
    exact bind_mapError (exec_bare body s) fun _ => rfl
  | .print span argument, s => by
    rw [bare, exec, exec]
    exact bind_mapError (s.eval_bare argument) fun _ => rfl
  | .number .., s | .boolean .., s | .string .., s | .reference .., s | .binary .., s
  | .list .., s | .call .., s => by
    rw [exec_of_isStatement_eq_false rfl, exec_of_isStatement_eq_false rfl]
    exact bind_mapError (s.eval_bare _) fun _ => rfl

/-- Statements without their places do the same, or halt for the same reason. -/
theorem execAll_bare : ∀ (ts : List Tree) (s : State) (value : Option Value),
    execAll builtins fuel (bareAll ts) s value
      = (execAll builtins fuel ts s value).mapError Halt.bare
  | [], s, value => by
    rw [bareAll, execAll]
    rfl
  | t :: rest, s, value => by
    rw [bareAll, execAll, execAll]
    exact bind_mapError (exec_bare t s) fun reached => execAll_bare rest reached.state reached.value

end

end Tree

/-! ## Programs -/

/-- A result without places is read off from a run without places. -/
theorem resultOf_mapError (x : Except Halt Progress) :
    resultOf (x.mapError Halt.bare) = (resultOf x).map RunResult.bare := by
  rcases x with ⟨_ | d, s⟩ | ⟨s, value⟩ <;> rfl

/-- A program without its places leaves behind what the program does, less the place of the
diagnostic. -/
theorem Program.run_bare (p : Program) (fuel : Nat) (builtins : Builtins) (env : Environment) :
    p.bare.run fuel builtins env = (p.run fuel builtins env).map RunResult.bare := by
  rw [Program.run_eq_resultOf, Program.run_eq_resultOf, ← resultOf_mapError, ← Tree.execAll_bare,
    Tree.bareAll_eq_map]
  rfl

/-- Where a program ends without a diagnostic, so does every program that differs in places only. -/
theorem Program.run_of_bare_eq {p q : Program} {fuel : Nat} {builtins : Builtins}
    {env : Environment} {r : RunResult} (h : q.bare = p.bare)
    (hp : p.run fuel builtins env = .ok r) (hr : r.error = none) :
    q.run fuel builtins env = .ok r := by
  have hq : (q.run fuel builtins env).map RunResult.bare = .ok r.bare := by
    rw [← Program.run_bare, h, Program.run_bare, hp]
    rfl
  obtain ⟨⟨output, error, env', value⟩, hrun, hbare⟩ := map_eq_ok.mp hq
  obtain ⟨output', error', env'', value'⟩ := r
  obtain ⟨rfl, herror, rfl, rfl⟩ := RunResult.mk.inj hbare
  subst hr
  obtain rfl : error = none := Option.map_eq_none_iff.mp herror
  exact hrun

/-- Only the messages of syntax errors name a line. -/
theorem Problem.message_eq {problem : Problem} (h : problem.kind ≠ .grammatical)
    (line line' : Nat) : problem.message line = problem.message line' := by
  cases problem with
  | unexpectedToken => exact absurd rfl h
  | _ => rfl

/-- A run reports no syntax error. -/
theorem Program.kind_ne_of_run {p : Program} {fuel : Nat} {builtins : Builtins} {env : Environment}
    {r : RunResult} {d : Diagnostic} (h : p.run fuel builtins env = .ok r)
    (hd : r.error = some d) : d.problem.kind ≠ .grammatical := by
  obtain ⟨n, -, hcause⟩ := Program.exists_canCause h hd
  exact hcause.kind_ne.2

/-- What a diagnostic says apart from its place: its kind and its message. -/
def Diagnostic.report (d : Diagnostic) : ProblemKind × Text := (d.problem.kind, d.message)

/-- What a result says apart from places. -/
def RunResult.report (r : RunResult) :
    Text × Option (ProblemKind × Text) × Environment × Option Value :=
  (r.output, r.error.map Diagnostic.report, r.environment, r.value)

/-- A report names no place, unless the error is one of the parser. -/
theorem RunResult.report_bare {r : RunResult}
    (h : ∀ d, r.error = some d → d.problem.kind ≠ .grammatical) : r.bare.report = r.report := by
  obtain ⟨output, error, env, value⟩ := r
  cases error with
  | none => rfl
  | some d =>
    have hreport : d.bare.report = d.report :=
      congrArg (Prod.mk d.problem.kind) (Problem.message_eq (h d rfl) _ _)
    rw [RunResult.report, RunResult.report, RunResult.bare, Option.map_some, Option.map_some,
      hreport, Option.map_some]

/-- Without spans a program reports the same. -/
theorem Program.report_run_bare (p : Program) (fuel : Nat) (builtins : Builtins)
    (env : Environment) :
    (p.bare.run fuel builtins env).map RunResult.report
      = (p.run fuel builtins env).map RunResult.report := by
  rw [Program.run_bare]
  cases hrun : p.run fuel builtins env with
  | error abort => rfl
  | ok r => exact congrArg Except.ok (RunResult.report_bare fun _ => Program.kind_ne_of_run hrun)

/-! ## Spelling -/

namespace Lexicon

/-- Every token that is scanned denotes what its text says. -/
theorem denotes_of_mem_scanLine {line column : Nat} {text : Text} {token : Token}
    (h : .ok token ∈ Token.scanLine line column 0 text) : Denotes token.text token.kind := by
  induction text using Token.lexemeInduction generalizing column with
  | nil => cases h
  | blank u rest hstart ih =>
    rw [Token.scanLine_blank hstart] at h
    exact ih h
  | token u rest kind n hstart ih =>
    rw [Token.scanLine_token hstart] at h
    obtain heq | h := List.mem_cons.mp h
    · obtain rfl := Except.ok.inj heq
      exact denotes_of_startAt hstart
    · exact ih h
  | problem u rest problem hstart ih =>
    rw [Token.scanLine_problem hstart] at h
    obtain heq | h := List.mem_cons.mp h
    · cases heq
    · exact ih h

end Lexicon

/-- A token is spelled as its kind is: as a lexeme of that kind, or not at all at the end of
input. -/
def Token.IsSpelled (t : Token) : Prop :=
  t.kind = .endOfInput ∧ t.text = [] ∨ Lexicon.Denotes t.text t.kind

/-- Tokens with the same text have the same kind. -/
theorem Token.IsSpelled.kind_eq {s t : Token} (hs : s.IsSpelled) (ht : t.IsSpelled)
    (htext : s.text = t.text) : s.kind = t.kind := by
  obtain ⟨hskind, hsnil⟩ | hs := hs
  · obtain ⟨htkind, -⟩ | ht := ht
    · rw [hskind, htkind]
    · obtain ⟨u, rest, hcons, -⟩ := ht.startAt
      rw [← htext, hsnil] at hcons
      cases hcons
  · obtain ⟨-, htnil⟩ | ht := ht
    · obtain ⟨u, rest, hcons, -⟩ := hs.startAt
      rw [htext, htnil] at hcons
      cases hcons
    · rw [htext] at hs
      exact hs.unique ht

/-- Every token of a script is spelled by its text. -/
theorem isSpelled_of_mem_tokenize {source : Text} {t : Token}
    (h : t ∈ (tokenize source).tokens) : t.IsSpelled := by
  obtain ⟨last, hlast⟩ := Token.exists_last_line source
  rw [Token.tokens_tokenize hlast, List.mem_append, Token.mem_filterMap_toOption,
    List.mem_singleton] at h
  obtain h | rfl := h
  · obtain ⟨k, text, -, hmem⟩ := Token.mem_scanEach h
    exact .inr (Lexicon.denotes_of_mem_scanLine hmem)
  · exact .inl ⟨rfl, rfl⟩

/-- Tokens that are spelled alike have the same kinds. -/
theorem kinds_eq_of_texts_eq {tokens tokens' : List Token} (h : ∀ t ∈ tokens, t.IsSpelled)
    (h' : ∀ t ∈ tokens', t.IsSpelled) (htexts : tokens.map (·.text) = tokens'.map (·.text)) :
    kinds tokens = kinds tokens' := by
  induction tokens generalizing tokens' with
  | nil =>
    obtain rfl := List.map_eq_nil_iff.mp htexts.symm
    rfl
  | cons t rest ih =>
    cases tokens' with
    | nil => cases htexts
    | cons t' rest' =>
      obtain ⟨htext, hrest⟩ := List.cons.inj htexts
      obtain ⟨ht, htail⟩ := List.forall_mem_cons.mp h
      obtain ⟨ht', htail'⟩ := List.forall_mem_cons.mp h'
      rw [kinds_cons, kinds_cons, ht.kind_eq ht' htext, ih htail htail' hrest]

/-! ## Syntax errors -/

section SyntaxErrors

open Grammar

variable {tokens tokens' before : List Token} {t : Token} {d d' : Diagnostic}

/-- The beginnings of a script end before the first impossible token. -/
theorem FirstImpossible.viable_take_iff (h : FirstImpossible tokens before t) (n : Nat) :
    Viable ((kinds tokens).take n) ↔ n ≤ before.length := by
  obtain ⟨more, rfl⟩ := h.begins
  constructor
  -- beyond the impossible token nothing is viable
  · intro hviable
    by_contra hlt
    refine h.impossible ?_
    have hlength : (kinds (before ++ [t])).length ≤ n := by
      rw [kinds, List.length_map, List.length_append, List.length_singleton]
      omega
    rw [kinds_append, List.take_append, List.take_of_length_le hlength] at hviable
    exact hviable.of_append
  -- and up to it everything is, being the beginning of what is
  · intro hle
    have htake : (kinds (before ++ [t] ++ more)).take n = (kinds before).take n := by
      rw [List.append_assoc, kinds_append, List.take_append_of_le_length]
      rwa [kinds, List.length_map]
    rw [htake]
    have hviable := h.viable
    rw [← List.take_append_drop n (kinds before)] at hviable
    exact hviable.of_append

/-- The diagnostic is a syntax error at the token of index `i`. -/
def Diagnostic.ReportsAt (d : Diagnostic) (tokens : List Token) (i : Nat) : Prop :=
  ∃ t, tokens[i]? = some t ∧ d.Reports t

/-- A syntax error is at one token only. -/
theorem Diagnostic.ReportsAt.unique {source : Text} {i j : Nat}
    (hi : d.ReportsAt (tokenize source).tokens i) (hj : d.ReportsAt (tokenize source).tokens j) :
    i = j := by
  obtain ⟨s, hs, hsreports⟩ := hi
  obtain ⟨t, ht, htreports⟩ := hj
  have hstart : s.span.start = t.span.start := hsreports.position.symm.trans htreports.position
  rcases lt_trichotomy i j with hlt | rfl | hlt
  · exact absurd hstart (Token.follows_of_lt hs ht hlt).1.ne
  · rfl
  · exact absurd hstart (Token.follows_of_lt ht hs hlt).1.ne'

/-- The error at the first impossible token reports its place among the tokens. -/
theorem FirstImpossible.reportsAt (h : FirstImpossible tokens before t) (hd : d.Reports t) :
    d.ReportsAt tokens before.length := by
  obtain ⟨more, rfl⟩ := h.begins
  exact ⟨t, by simp, hd⟩

/-- Tokens of the same kinds have their syntax errors at the same index. -/
theorem exists_reportsAt_of_kinds_eq (h : Terminated tokens) (h' : Terminated tokens')
    (hkinds : kinds tokens = kinds tokens') (hd : parse tokens = .error d)
    (hd' : parse tokens' = .error d') :
    ∃ i, d.ReportsAt tokens i ∧ d'.ReportsAt tokens' i := by
  obtain ⟨before, t, hfirst, hreports⟩ := firstImpossible_of_parse_error h hd
  obtain ⟨before', t', hfirst', hreports'⟩ := firstImpossible_of_parse_error h' hd'
  have hiff : ∀ n, n ≤ before.length ↔ n ≤ before'.length := by
    intro n
    rw [← hfirst.viable_take_iff, ← hfirst'.viable_take_iff, hkinds]
  have hlength : before.length = before'.length :=
    Nat.le_antisymm ((hiff _).mp (Nat.le_refl _)) ((hiff _).mpr (Nat.le_refl _))
  exact ⟨before.length, hfirst.reportsAt hreports, hlength ▸ hfirst'.reportsAt hreports'⟩

end SyntaxErrors

/-! ## Scripts -/

namespace Script

variable {a b : Text}

/-- A script without lexical errors is parsed from its tokens. -/
theorem parse_eq_parse (h : (tokenize a).errors = []) :
    Script.parse a = Plume.parse (tokenize a).tokens := by
  rw [Script.parse, h]

/-- Two sources whose tokens are spelled alike are the same script. Either both parse, into trees
that differ in their places only and whose runs do the same, or neither does, and the errors are at
the same index among the tokens. -/
theorem parse_of_texts_eq (ha : (tokenize a).errors = []) (hb : (tokenize b).errors = [])
    (htexts : (tokenize a).tokens.map (·.text) = (tokenize b).tokens.map (·.text)) :
    (∃ p q, Script.parse a = .ok p ∧ Script.parse b = .ok q ∧ p.bare = q.bare
        ∧ ∀ fuel builtins env, (p.run fuel builtins env).map RunResult.report
          = (q.run fuel builtins env).map RunResult.report)
      ∨ ∃ d d' i, Script.parse a = .error d ∧ Script.parse b = .error d'
        ∧ ∀ j, (d.ReportsAt (tokenize a).tokens j ↔ j = i)
          ∧ (d'.ReportsAt (tokenize b).tokens j ↔ j = i) := by
  -- the texts determine the kinds, and the kinds what the parser does
  have hkinds := kinds_eq_of_texts_eq (fun _ => isSpelled_of_mem_tokenize)
    (fun _ => isSpelled_of_mem_tokenize) htexts
  rw [parse_eq_parse ha, parse_eq_parse hb]
  cases hpa : Plume.parse (tokenize a).tokens with
  | ok p =>
    obtain ⟨q, hpb, hbare⟩ := exists_parse_of_kinds_eq hkinds hpa
    refine .inl ⟨p, q, rfl, hpb, hbare.symm, fun fuel builtins env => ?_⟩
    rw [← p.report_run_bare, ← q.report_run_bare, hbare]
  | error d =>
    cases hpb : Plume.parse (tokenize b).tokens with
    | ok q =>
      obtain ⟨p, hpa', -⟩ := exists_parse_of_kinds_eq hkinds.symm hpb
      rw [hpa] at hpa'
      cases hpa'
    | error d' =>
      obtain ⟨lastA, hlastA⟩ := Token.exists_last_line a
      obtain ⟨lastB, hlastB⟩ := Token.exists_last_line b
      obtain ⟨i, hi, hi'⟩ := exists_reportsAt_of_kinds_eq (Token.terminated_tokenize hlastA)
        (Token.terminated_tokenize hlastB) hkinds hpa hpb
      refine .inr ⟨d, d', i, rfl, rfl, fun j => ⟨⟨fun hj => hj.unique hi, ?_⟩,
        ⟨fun hj => hj.unique hi', ?_⟩⟩⟩
      · rintro rfl
        exact hi
      · rintro rfl
        exact hi'

/-- A loop on one line, in whose first round a name is not defined. -/
def loopOnOneLine : Text := "while 1<2:print(x)"

/-- The same loop on two lines. -/
def loopOnTwoLines : Text := Text.joinLines ["while 1 < 2:", "    print(x)"]

theorem parse_of_texts_eq_loop :
    ∃ p q, Script.parse loopOnOneLine = .ok p ∧ Script.parse loopOnTwoLines = .ok q
      ∧ p.bare = q.bare
      ∧ ∀ fuel builtins env, (p.run fuel builtins env).map RunResult.report
        = (q.run fuel builtins env).map RunResult.report := by
  have hone : (tokenize loopOnOneLine).errors = [] := by decide +kernel
  have htwo : (tokenize loopOnTwoLines).errors = [] := by decide +kernel
  have htexts : (tokenize loopOnOneLine).tokens.map (·.text)
      = (tokenize loopOnTwoLines).tokens.map (·.text) := by decide +kernel
  obtain ⟨p, hp⟩ : ∃ p, Script.parse loopOnOneLine = .ok p := ⟨_, rfl⟩
  obtain h | ⟨d, d', i, hd, -⟩ := parse_of_texts_eq hone htwo htexts
  · exact h
  · rw [hp] at hd
    cases hd

end Script

end Plume
