import Plume.Proofs.Munching

/-!
# Space between lexemes

The lexemes of a source may be set apart by spaces, tabs and line ends as one likes. As long as
there is something between any two of them, the tokens of the source are just these lexemes
(`Lexicon.tokenize_layOut`). What a string holds is not taken for space, nor a CR in it for the end
of a line.

## Shape of the proof

`Token.scanFrom` reads a text from a place in the middle of a line on. It passes over space, which
only moves the place (`IsSpacing.exists_scanFrom_append`), and takes a lexeme that has space or the
end behind it as one token (`Lexeme.scanFrom_append`). The source is then read lexeme by lexeme.
-/

namespace Plume

/-! ## Lines -/

/-- A text that holds no line end, and no beginning of one at its end, belongs to the first line of
what follows it. -/
theorem Text.lines_append {t : Text} (hfeed : CodeUnit.lineFeed ∉ t)
    (hreturn : t.getLast? ≠ some CodeUnit.carriageReturn) (rest : Text) :
    Text.lines (t ++ rest) = (Text.lines rest).modifyHead (t ++ ·) := by
  induction t with
  | nil => exact (congrFun List.modifyHead_id _).symm
  | cons u t ih =>
    have hu := List.ne_of_not_mem_cons hfeed
    have ht := List.not_mem_of_not_mem_cons hfeed
    -- no unit of `t` ends a line, for a carriage return ends one only before a line feed
    have hcondition : (u == CodeUnit.carriageReturn
        && (t ++ rest).head? == some CodeUnit.lineFeed) = false := by
      rw [Bool.and_eq_false_iff, beq_eq_false_iff_ne, beq_eq_false_iff_ne]
      rcases t with _ | ⟨v, t⟩
      · left
        rintro rfl
        exact hreturn rfl
      · right
        intro hhead
        exact ht (Option.some.inj hhead ▸ List.mem_cons_self)
    have hlast : t.getLast? ≠ some CodeUnit.carriageReturn := by
      rcases t with _ | ⟨v, t⟩
      · rintro ⟨⟩
      · rwa [List.getLast?_cons_cons] at hreturn
    rw [List.cons_append, Text.lines, if_neg (by simpa using Ne.symm hu), hcondition,
      if_neg Bool.false_ne_true, ih ht hlast, List.modifyHead_modifyHead]
    rfl

/-- A space or a tab ends no line. -/
theorem CodeUnit.ne_lineEnd_of_isSpaceOrTab {u : CodeUnit} (h : u.isSpaceOrTab = true) :
    CodeUnit.lineFeed ∉ [u] ∧ [u].getLast? ≠ some CodeUnit.carriageReturn := by
  rw [List.mem_singleton, List.getLast?_singleton]
  constructor
  · rintro rfl
    cases h
  · rintro ⟨⟩
    cases h

namespace Token

variable {line column : Nat} {t rest : Text}

/-- The first line of a text. -/
def firstLine (text : Text) : Text := text.lines.headD []

/-- The tokens and the problems of a text that starts at the given line and column. -/
def scanFrom (line column : Nat) (text : Text) : List (Except Diagnostic Token) :=
  scanLine line column 0 (firstLine text) ++ scanEach (line + 1) text.lines.tail

/-- Scanning the lines of a text is scanning the text from its start. -/
theorem scanEach_lines (line : Nat) (text : Text) :
    scanEach line text.lines = scanFrom line 1 text := by
  obtain ⟨first, others, hlines⟩ := List.exists_cons_of_ne_nil (lines_ne_nil text)
  rw [scanFrom, firstLine, hlines]
  rfl

/-- What has no line end in it lengthens the first line, and leaves the others. -/
theorem firstLine_append (hfeed : CodeUnit.lineFeed ∉ t)
    (hreturn : t.getLast? ≠ some CodeUnit.carriageReturn) (rest : Text) :
    firstLine (t ++ rest) = t ++ firstLine rest ∧ (t ++ rest).lines.tail = rest.lines.tail := by
  obtain ⟨first, others, hlines⟩ := List.exists_cons_of_ne_nil (lines_ne_nil rest)
  rw [firstLine, firstLine, Text.lines_append hfeed hreturn, hlines]
  exact ⟨rfl, rfl⟩

/-- What has no line end in it is scanned with the rest of the first line. -/
theorem scanFrom_append (hfeed : CodeUnit.lineFeed ∉ t)
    (hreturn : t.getLast? ≠ some CodeUnit.carriageReturn) :
    scanFrom line column (t ++ rest)
      = scanLine line column 0 (t ++ firstLine rest) ++ scanEach (line + 1) rest.lines.tail := by
  obtain ⟨hfirst, htail⟩ := firstLine_append hfeed hreturn rest
  rw [scanFrom, hfirst, htail]

/-- A token that the first line of what follows does not make longer is read off. -/
theorem scanFrom_token {u : CodeUnit} {r : Text} {kind : TokenKind}
    (hfeed : CodeUnit.lineFeed ∉ u :: r)
    (hreturn : (u :: r).getLast? ≠ some CodeUnit.carriageReturn)
    (hstart : startAt u (r ++ firstLine rest) = .token kind (u :: r).length) :
    scanFrom line column (u :: r ++ rest)
      = .ok ⟨kind, u :: r, ⟨⟨line, column⟩, ⟨line, column + (u :: r).length⟩⟩⟩
        :: scanFrom line (column + (u :: r).length) rest := by
  have hscan : scanLine line column 0 (u :: (r ++ firstLine rest)) = _ := scanLine_token hstart
  rw [← List.cons_append, List.take_left, List.drop_left] at hscan
  rw [scanFrom_append hfeed hreturn, hscan, List.cons_append, scanFrom]

/-- Behind a line feed the next line is scanned. -/
theorem scanFrom_lineFeed :
    scanFrom line column (CodeUnit.lineFeed :: rest) = scanFrom (line + 1) 1 rest :=
  scanEach_lines (line + 1) rest

/-- A carriage return before a line feed belongs to the end of the line. -/
theorem scanFrom_carriageReturn :
    scanFrom line column (CodeUnit.carriageReturn :: CodeUnit.lineFeed :: rest)
      = scanFrom (line + 1) 1 rest :=
  scanEach_lines (line + 1) rest

/-- A blank moves the scan on by a column. -/
theorem scanFrom_blank {u : CodeUnit} (hu : u.isSpaceOrTab = true) :
    scanFrom line column (u :: rest) = scanFrom line (column + 1) rest := by
  obtain ⟨hfeed, hreturn⟩ := CodeUnit.ne_lineEnd_of_isSpaceOrTab hu
  rw [← List.singleton_append, scanFrom_append hfeed hreturn, List.singleton_append,
    scanLine_blank (Lexicon.startAt_of_isSpaceOrTab hu), scanFrom]

end Token

namespace Lexicon

open Token

/-! ## Space -/

/-- A text is made of spaces, tabs, LF and CR LF. -/
inductive IsSpacing : Text → Prop
  | nil : IsSpacing []
  | blank {u : CodeUnit} {rest : Text} : u.isSpaceOrTab = true → IsSpacing rest →
      IsSpacing (u :: rest)
  | lineFeed {rest : Text} : IsSpacing rest → IsSpacing (CodeUnit.lineFeed :: rest)
  | carriageReturn {rest : Text} : IsSpacing rest →
      IsSpacing (CodeUnit.carriageReturn :: CodeUnit.lineFeed :: rest)

variable {space rest : Text}

/-- Space gives no tokens and no problems. -/
theorem IsSpacing.exists_scanFrom_append (h : IsSpacing space) (rest : Text) (line column : Nat) :
    ∃ line' column', scanFrom line column (space ++ rest) = scanFrom line' column' rest := by
  induction h generalizing line column with
  | nil => exact ⟨line, column, rfl⟩
  | blank hu _ ih =>
    obtain ⟨line', column', heq⟩ := ih line (column + 1)
    exact ⟨line', column', (scanFrom_blank hu).trans heq⟩
  | lineFeed _ ih =>
    obtain ⟨line', column', heq⟩ := ih (line + 1) 1
    exact ⟨line', column', scanFrom_lineFeed.trans heq⟩
  | carriageReturn _ ih =>
    obtain ⟨line', column', heq⟩ := ih (line + 1) 1
    exact ⟨line', column', scanFrom_carriageReturn.trans heq⟩

/-- No token goes on into the first line of a text: it is empty or starts with a unit that separates
tokens. -/
def StartsApart (text : Text) : Prop :=
  firstLine text = [] ∨ ∃ c more, firstLine text = c :: more ∧ separates c = true

/-- A separator stands apart from what is before it. -/
theorem startsApart_cons {c : CodeUnit} (hc : separates c = true) (hfeed : CodeUnit.lineFeed ∉ [c])
    (hreturn : [c].getLast? ≠ some CodeUnit.carriageReturn) : StartsApart (c :: rest) :=
  .inr ⟨c, firstLine rest, (firstLine_append hfeed hreturn rest).1, hc⟩

/-- Spacing stands apart from the lexeme before it, and so does the end of the text. -/
theorem IsSpacing.startsApart (h : IsSpacing space) (hrest : space = [] → rest = []) :
    StartsApart (space ++ rest) := by
  cases h with
  | nil =>
    left
    rw [hrest rfl]
    rfl
  | lineFeed _ => exact .inl rfl
  | carriageReturn _ => exact .inl rfl
  | @blank u space hu _ =>
    obtain ⟨hfeed, hreturn⟩ := CodeUnit.ne_lineEnd_of_isSpaceOrTab hu
    refine startsApart_cons ?_ hfeed hreturn
    have hblank : u = 0x20 ∨ u = 0x09 := by
      simpa only [CodeUnit.isSpaceOrTab, Bool.or_eq_true, beq_iff_eq] using hu
    rcases hblank with rfl | rfl <;> decide

/-! ## Lexemes -/

/-- A lexeme without LF, and the kind that it stands for. -/
structure Lexeme where
  text : Text
  kind : TokenKind
  denotes : Denotes text kind
  onOneLine : CodeUnit.lineFeed ∉ text

/-- No lexeme ends in CR. -/
theorem Denotes.getLast?_ne {t : Text} {kind : TokenKind} (h : Denotes t kind) :
    t.getLast? ≠ some CodeUnit.carriageReturn := by
  have hword : ∀ t ∈ word, t.getLast? ≠ some CodeUnit.carriageReturn := by
    intro t ht hlast
    obtain ⟨u, r, rfl, hletter, hr⟩ := mem_word.mp ht
    rcases List.mem_cons.mp (List.mem_of_getLast? hlast) with rfl | hmem
    · exact absurd hletter (by decide)
    · exact absurd (hr _ hmem) (by decide)
  have hdigits : ∀ t ∈ digits, t.getLast? ≠ some CodeUnit.carriageReturn := by
    intro t ht hlast
    exact absurd ((mem_digits.mp ht).2 _ (List.mem_of_getLast? hlast)) (by decide)
  -- the last unit of a lexeme is one that a word, a number, a string or a mark can end with
  cases h with
  | keyword hkeyword => exact hword _ (mem_word_of_keyword hkeyword)
  | name hname _ => exact hword _ hname
  | int hint => exact hdigits _ hint
  | @float whole fraction hwhole hfraction =>
    have hne := (mem_digits.mp hfraction).1
    rw [List.getLast?_append_of_ne_nil _ (List.cons_ne_nil _ _), List.getLast?_cons_of_ne_nil hne]
    exact hdigits _ hfraction
  | string _ =>
    rw [List.getLast?_concat]
    decide
  | mark hmark =>
    have hmarks : ∀ m ∈ TokenKind.marks, m.1.getLast? ≠ some CodeUnit.carriageReturn := by decide
    exact hmarks _ hmark

/-- A lexeme with space or the end behind it is taken as one token. -/
theorem Lexeme.scanFrom_append (lexeme : Lexeme) (hrest : StartsApart rest) (line column : Nat) :
    scanFrom line column (lexeme.text ++ rest)
      = .ok ⟨lexeme.kind, lexeme.text, ⟨⟨line, column⟩, ⟨line, column + lexeme.text.length⟩⟩⟩
        :: scanFrom line (column + lexeme.text.length) rest := by
  obtain ⟨u, r, htext, hstart⟩ := lexeme.denotes.startAt
  have happend : startAt u (r ++ firstLine rest) = .token lexeme.kind lexeme.text.length := by
    rcases hrest with hempty | ⟨c, more, hfirst, hc⟩
    · rw [hempty, List.append_nil, hstart]
    · rw [hfirst, startAt_append hc (by simp [hstart]), hstart]
  have hfeed := lexeme.onOneLine
  have hreturn := lexeme.denotes.getLast?_ne
  rw [htext] at hfeed hreturn happend ⊢
  exact scanFrom_token hfeed hreturn happend

/-! ## Sources -/

/-- A source: some space, and then lexemes, each with some space behind it. -/
def layOut (lead : Text) (pieces : List (Lexeme × Text)) : Text :=
  lead ++ pieces.flatMap fun piece => piece.1.text ++ piece.2

variable {lead : Text} {pieces : List (Lexeme × Text)}

/-- What is read of lexemes that are set apart is the lexemes. -/
theorem exists_scanFrom_pieces (hspacing : ∀ piece ∈ pieces, IsSpacing piece.2)
    (hapart : ∀ piece ∈ pieces.dropLast, piece.2 ≠ []) (line column : Nat) :
    ∃ tokens : List Token,
      scanFrom line column (pieces.flatMap fun piece => piece.1.text ++ piece.2) = tokens.map .ok
        ∧ tokens.map (fun t => (t.text, t.kind))
          = pieces.map fun piece => (piece.1.text, piece.1.kind) := by
  induction pieces generalizing line column with
  | nil => exact ⟨[], rfl, rfl⟩
  | cons piece pieces ih =>
    obtain ⟨lexeme, space⟩ := piece
    obtain ⟨hspace, hspacing⟩ := List.forall_mem_cons.mp hspacing
    -- only the last piece may be without spacing, and nothing follows it
    have hlast : space = [] → (pieces.flatMap fun piece => piece.1.text ++ piece.2) = [] := by
      intro hempty
      rcases pieces with _ | ⟨next, pieces⟩
      · rfl
      · exact absurd hempty (hapart (lexeme, space) List.mem_cons_self)
    have hothers : ∀ piece ∈ pieces.dropLast, piece.2 ≠ [] := by
      intro piece hpiece
      rcases pieces with _ | ⟨next, pieces⟩
      · cases hpiece
      · exact hapart piece (List.mem_cons_of_mem _ hpiece)
    -- the spacing is skipped, to wherever it ends
    obtain ⟨line', column', hskip⟩ := hspace.exists_scanFrom_append
      (pieces.flatMap fun piece => piece.1.text ++ piece.2) line (column + lexeme.text.length)
    obtain ⟨tokens, htokens, htexts⟩ := ih hspacing hothers line' column'
    refine ⟨⟨lexeme.kind, lexeme.text, ⟨⟨line, column⟩, ⟨line, column + lexeme.text.length⟩⟩⟩
      :: tokens, ?_, ?_⟩
    · rw [List.flatMap_cons, List.append_assoc,
        lexeme.scanFrom_append (hspace.startsApart hlast), hskip, htokens, List.map_cons]
    · rw [List.map_cons, List.map_cons, htexts]

/-- A source made of lexemes with space between them has no problems, and its tokens are the
lexemes, each with its text and its kind, and the end of input behind them. -/
theorem tokenize_layOut (hlead : IsSpacing lead) (hspacing : ∀ piece ∈ pieces, IsSpacing piece.2)
    (hapart : ∀ piece ∈ pieces.dropLast, piece.2 ≠ []) :
    (tokenize (layOut lead pieces)).errors = []
      ∧ (tokenize (layOut lead pieces)).tokens.map (fun t => (t.text, t.kind))
        = pieces.map (fun piece => (piece.1.text, piece.1.kind)) ++ [([], .endOfInput)] := by
  obtain ⟨last, hlines⟩ := exists_last_line (layOut lead pieces)
  -- the spacing in front is skipped, to wherever it ends
  obtain ⟨line, column, hskip⟩ := hlead.exists_scanFrom_append
    (pieces.flatMap fun piece => piece.1.text ++ piece.2) 1 1
  obtain ⟨tokens, htokens, htexts⟩ := exists_scanFrom_pieces hspacing hapart line column
  have hscan : scanEach 1 (layOut lead pieces).lines = tokens.map .ok := by
    rw [scanEach_lines, layOut, hskip, htokens]
  constructor
  · rw [errors_tokenize, hscan, List.filterMap_map]
    exact List.filterMap_eq_nil_iff.mpr fun _ _ => rfl
  · have hread : (tokens.map Except.ok).filterMap (Except.toOption (ε := Diagnostic)) = tokens := by
      rw [List.filterMap_map]
      exact List.filterMap_some
    rw [tokens_tokenize hlines, hscan, hread, List.map_append, htexts]
    rfl

/-- `if`, `iffy`, `==`, a string that holds a CR, a tab and a keyword, and `1.50`, on four lines. -/
def spacedCondition : List (Lexeme × Text) :=
  [(⟨"if", .wordIf, .keyword (by decide), by decide⟩, [0x20]),
    (⟨"iffy", .name "iffy",
      denotes_ofWord (mem_word.mpr ⟨_, _, rfl, rfl, List.all_eq_true.mp rfl⟩), by decide⟩,
      [CodeUnit.carriageReturn, CodeUnit.lineFeed, 0x09]),
    (⟨"==", .relation .eq, .mark (by decide), by decide⟩,
      [CodeUnit.lineFeed, CodeUnit.lineFeed]),
    (⟨Token.quote :: [CodeUnit.carriageReturn, 0x09, 0x69, 0x66] ++ [Token.quote],
      .string [CodeUnit.carriageReturn, 0x09, 0x69, 0x66], .string (by decide), by decide⟩, [0x20]),
    (⟨[0x31] ++ point :: [0x35, 0x30], _,
      .float (mem_digits.mpr ⟨List.cons_ne_nil _ _, List.all_eq_true.mp rfl⟩)
        (mem_digits.mpr ⟨List.cons_ne_nil _ _, List.all_eq_true.mp rfl⟩), by decide⟩, [])]

theorem tokenize_layOut_spacedCondition :
    IsSpacing [CodeUnit.lineFeed]
      ∧ (∀ piece ∈ spacedCondition, IsSpacing piece.2)
      ∧ (∀ piece ∈ spacedCondition.dropLast, piece.2 ≠ [])
      ∧ (tokenize (layOut [CodeUnit.lineFeed] spacedCondition)).errors = []
      ∧ (tokenize (layOut [CodeUnit.lineFeed] spacedCondition)).tokens.map
          (fun t => (t.text, t.kind))
        = spacedCondition.map (fun piece => (piece.1.text, piece.1.kind))
          ++ [([], .endOfInput)] := by
  have hlead : IsSpacing [CodeUnit.lineFeed] := .lineFeed .nil
  have hspacing : ∀ piece ∈ spacedCondition, IsSpacing piece.2 := by
    simp only [spacedCondition, List.forall_mem_cons]
    exact ⟨.blank rfl .nil, .carriageReturn (.blank rfl .nil), .lineFeed (.lineFeed .nil),
      .blank rfl .nil, .nil, fun piece h => absurd h List.not_mem_nil⟩
  have hapart : ∀ piece ∈ spacedCondition.dropLast, piece.2 ≠ [] := by
    simp [spacedCondition]
  exact ⟨hlead, hspacing, hapart, tokenize_layOut hlead hspacing hapart⟩

end Lexicon

end Plume
