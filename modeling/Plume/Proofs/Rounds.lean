import Plume.Console.Menu
import Plume.Proofs.Reporting

/-!
# Rounds of the menu

A session with the menu is a number of rounds, of which only the last one leaves the menu. A round
shows the menu and asks for a choice. Then it says that the choice is invalid, or asks for a source
and gives a hint or a report; the last round takes its leave instead (`Round`, `LastRound`). Each
question takes the next answer (`Answered`), and what a round does depends on the answers that it
takes and on nothing before it (`Menu.ends_in_rounds`).
-/

namespace Plume.Console

/-! ## Reports -/

/-- The report on a source whose run has the given result. -/
def reportOf (source : Text) (r : RunResult) : Text :=
  let content : List Text :=
    match Script.parse source with
    | .error d => ["--- Output ---", "Failed to parse: " ++ d.text]
    | .ok program => runLines program r
  Text.joinLines <|
    [banner "RESULT", "Input: " ++ source, []] ++ content ++ [repeated bannerWidth ("=" : Text), []]

/-- For a report a source is run as it is elsewhere. -/
theorem report_eq_map (fuel : Nat) (source : Text) :
    report fuel source = (Script.evaluate fuel source).map (reportOf source) := by
  cases hparse : Script.parse source with
  | error d =>
    simp only [report, hparse, Script.evaluate_of_parse_eq_error hparse, Except.map, reportOf]
    rfl
  | ok p =>
    simp only [report, hparse, Script.evaluate_of_parse_eq_ok hparse]
    cases p.run fuel .standard .empty with
    | error a => rfl
    | ok r =>
      simp only [Except.map, reportOf, hparse]
      rfl

/-- A report is written once the script has run. -/
theorem report_eq_ok {fuel : Nat} {source content : Text} :
    report fuel source = .ok content
      ↔ ∃ r, Script.evaluate fuel source = .ok r ∧ reportOf source r = content := by
  rw [report_eq_map, map_eq_ok]

namespace Menu

/-! ## What happens at the console -/

/-- A question with the answer to it, if the input was not closed, or a text that is written. -/
inductive Exchange where
  | ask (question : Text) (answer : Option Text)
  | write (text : Text)

namespace Exchange

/-- What the menu does to the outside. -/
def event : Exchange → Event
  | .ask question _ => .ask question
  | .write text => .write text

/-- The answer that is taken. -/
def answer? : Exchange → Option Text
  | .ask _ answer => answer
  | .write _ => none

end Exchange

/-- The answers that are taken. -/
def taken (xs : List Exchange) : List Text := xs.filterMap Exchange.answer?

/-- The questions take the answers one after the other. Once there is none left, the input is
closed. -/
def Answered : List Text → List Exchange → Prop
  | _, [] => True
  | answers, .write _ :: xs => Answered answers xs
  | answers, .ask _ answer :: xs => answer = answers.head? ∧ Answered answers.tail xs

/-- What the menu writes in a round before its first answer. -/
def opening (answer : Option Text) : List Exchange := [.write text, .ask choiceQuestion answer]

/-- A round that does not leave the menu. -/
inductive Round : List Exchange → Prop
  | invalid {answer : Text} : answer.trim ≠ exitChoice → categories.lookup answer.trim = none →
      Round (opening (some answer) ++ [.write invalidChoice])
  | hint {answer source hint : Text} {c : Category} : categories.lookup answer.trim = some c →
      c.requirement.hint? source = some hint →
        Round (opening (some answer)
          ++ [.ask c.prompt (some source), .write ("Syntax Error: " ++ hint ++ "\n\n")])
  | report {answer source content : Text} {c : Category} {fuel : Nat} :
      categories.lookup answer.trim = some c → c.requirement.hint? source = none →
      report fuel source = .ok content →
        Round (opening (some answer) ++ [.ask c.prompt (some source), .write content.endLine])

/-- A round that leaves the menu. -/
inductive LastRound : List Exchange → Prop
  | leave {answer : Text} : answer.trim = exitChoice →
      LastRound (opening (some answer) ++ [.write farewell])
  | closed : LastRound (opening none ++ [.write farewell])
  | closedEarly {answer : Text} {c : Category} : categories.lookup answer.trim = some c →
      LastRound (opening (some answer) ++ [.ask c.prompt none, .write farewell])

/-- A session with the given answers ends, after the given events. -/
def Ends (answers : List Text) (events : List Event) : Prop :=
  ∃ fuel, session fuel answers = .ok events

/-- The sources that a session with the given answers runs: those that are asked for by a category
and lack nothing of what it calls for. -/
inductive Runs : List Text → Text → Prop
  | now {answer source : Text} {rest : List Text} {c : Category} :
      categories.lookup answer.trim = some c → c.requirement.hint? source = none →
        Runs (answer :: source :: rest) source
  | afterInvalid {answer source : Text} {rest : List Text} : answer.trim ≠ exitChoice →
      categories.lookup answer.trim = none → Runs rest source → Runs (answer :: rest) source
  | afterSource {answer other source : Text} {rest : List Text} {c : Category} :
      categories.lookup answer.trim = some c → Runs rest source →
        Runs (answer :: other :: rest) source

/-! ## Choices -/

variable {answer source : Text} {c : Category} {fuel fuel' : Nat} {answers rest : List Text}
  {events : List Event} {x xs last : List Exchange} {rounds : List (List Exchange)}

/-- The menu is left by one answer only. -/
theorem choose_eq_leave : choose answer = .leave ↔ answer.trim = exitChoice := by
  simp only [choose, beq_iff_eq]
  split
  next h => simp [h]
  next h => cases categories.lookup answer.trim <;> simp [h]

/-- A category is chosen by its number. -/
theorem choose_eq_category :
    choose answer = .category c ↔ categories.lookup answer.trim = some c := by
  have hexit : categories.lookup exitChoice = none := rfl
  simp only [choose, beq_iff_eq]
  split
  next h => simp [h, hexit]
  next h => cases categories.lookup answer.trim <;> simp

/-- Every other answer is no choice. -/
theorem choose_eq_invalid :
    choose answer = .invalid ↔ answer.trim ≠ exitChoice ∧ categories.lookup answer.trim = none := by
  simp only [choose, beq_iff_eq]
  split
  next h => simp [h]
  next h => cases categories.lookup answer.trim <;> simp [h]

/-! ## The first round of a session -/

/-- A reply after which the menu is left ends the session. -/
theorem sessionFrom_of_left {stage : Stage}
    (h : stage.reply fuel (some answer) = .ok ⟨events, none⟩) :
    sessionFrom fuel stage (answer :: rest) = .ok (stage.opening ++ events) := by
  rw [sessionFrom, h]
  rfl

/-- After any other reply the session goes on with the next question and the answers that are
left. -/
theorem sessionFrom_of_next {stage next : Stage}
    (h : stage.reply fuel (some answer) = .ok ⟨events, some next⟩) :
    sessionFrom fuel stage (answer :: rest)
      = (sessionFrom fuel next rest).map (stage.opening ++ events ++ ·) := by
  rw [sessionFrom, h]
  rfl

/-- The choice to leave ends the session. -/
theorem session_leave (h : answer.trim = exitChoice) :
    session fuel (answer :: rest) = .ok [.write text, .ask choiceQuestion, .write farewell] :=
  sessionFrom_of_left (by rw [Stage.reply, choose_eq_leave.mpr h])

/-- After an invalid choice the next round starts. -/
theorem session_invalid (hexit : answer.trim ≠ exitChoice)
    (hlookup : categories.lookup answer.trim = none) :
    session fuel (answer :: rest) = (session fuel rest).map
      ([.write text, .ask choiceQuestion, .write invalidChoice] ++ ·) :=
  sessionFrom_of_next (by rw [Stage.reply, choose_eq_invalid.mpr ⟨hexit, hlookup⟩])

/-- A category is followed by the question for a source. -/
theorem reply_category (h : categories.lookup answer.trim = some c) :
    Stage.choice.reply fuel (some answer) = .ok ⟨[], some (.source c)⟩ := by
  rw [Stage.reply, choose_eq_category.mpr h]

/-- The input may be closed where a source is asked for. -/
theorem session_closedEarly (h : categories.lookup answer.trim = some c) :
    session fuel [answer]
      = .ok [.write text, .ask choiceQuestion, .ask c.prompt, .write farewell] :=
  sessionFrom_of_next (reply_category h)

/-- A category and its source take two answers, and then the next round starts. -/
theorem session_category (h : categories.lookup answer.trim = some c) :
    session fuel (answer :: source :: rest) = (do
      let response ← respond fuel c source
      (session fuel rest).map
        ([.write text, .ask choiceQuestion, .ask c.prompt, .write response] ++ ·)) := by
  have hchoice : session fuel (answer :: source :: rest)
      = (sessionFrom fuel (.source c) (source :: rest)).map
        ([.write text, .ask choiceQuestion] ++ ·) := sessionFrom_of_next (reply_category h)
  rw [hchoice]
  -- a script that does not come to its end leaves the session there
  cases hrespond : respond fuel c source with
  | error a =>
    have hreply : (Stage.source c).reply fuel (some source) = .error a := by
      rw [Stage.reply, hrespond]
      rfl
    rw [sessionFrom, hreply]
    rfl
  | ok response =>
    have hreply : (Stage.source c).reply fuel (some source)
        = .ok ⟨[.write response], some .choice⟩ := by
      rw [Stage.reply, hrespond]
      rfl
    rw [sessionFrom_of_next hreply, session]
    cases sessionFrom fuel .choice rest <;> rfl

/-- The answers of a session go round by round: none is left, or the first leaves the menu, is
invalid, or names a category and is followed by a source or by nothing. -/
theorem answersInduction {P : List Text → Prop} (closed : P [])
    (leave : ∀ answer rest, answer.trim = exitChoice → P (answer :: rest))
    (invalid : ∀ answer rest, answer.trim ≠ exitChoice → categories.lookup answer.trim = none →
      P rest → P (answer :: rest))
    (closedEarly : ∀ answer c, categories.lookup answer.trim = some c → P [answer])
    (category : ∀ answer c source rest, categories.lookup answer.trim = some c → P rest →
      P (answer :: source :: rest)) (answers : List Text) : P answers := by
  -- a round may begin with these answers, or has taken the name of a category before them
  suffices h : P answers
      ∧ ∀ answer c, categories.lookup answer.trim = some c → P (answer :: answers) from h.1
  induction answers with
  | nil => exact ⟨closed, closedEarly⟩
  | cons first rest ih =>
    refine ⟨?_, fun answer c h => category answer c first rest h ih.1⟩
    cases hchoice : choose first with
    | leave => exact leave first rest (choose_eq_leave.mp hchoice)
    | invalid =>
      obtain ⟨hexit, hlookup⟩ := choose_eq_invalid.mp hchoice
      exact invalid first rest hexit hlookup ih.1
    | category c => exact ih.2 first c (choose_eq_category.mp hchoice)

/-! ## Fuel -/

/-- A report that is written stays as it is with more fuel. -/
theorem report_mono (hfuel : fuel ≤ fuel') {content : Text} (h : report fuel source = .ok content) :
    report fuel' source = .ok content := by
  obtain ⟨r, hr, hcontent⟩ := report_eq_ok.mp h
  exact report_eq_ok.mpr ⟨r, Script.evaluate_mono hfuel hr, hcontent⟩

/-- Where something is missing from the script, the response says what. -/
theorem respond_hint {hint : Text} (h : c.requirement.hint? source = some hint) :
    respond fuel c source = .ok ("Syntax Error: " ++ hint ++ "\n\n") := by
  rw [respond, h]

/-- Where nothing is missing from the script, the response is its report. -/
theorem respond_report (h : c.requirement.hint? source = none) :
    respond fuel c source = (report fuel source).map Text.endLine := by
  rw [respond, h]
  rfl

/-- A response stays as it is with more fuel. -/
theorem respond_mono (hfuel : fuel ≤ fuel') {response : Text}
    (h : respond fuel c source = .ok response) : respond fuel' c source = .ok response := by
  cases hhint : c.requirement.hint? source with
  | some hint =>
    rw [respond_hint hhint] at h ⊢
    exact h
  | none =>
    rw [respond_report hhint, map_eq_ok] at h ⊢
    obtain ⟨content, hcontent, hresponse⟩ := h
    exact ⟨content, report_mono hfuel hcontent, hresponse⟩

/-- A session that has ended ends the same with more fuel. -/
theorem session_mono (hfuel : fuel ≤ fuel') (h : session fuel answers = .ok events) :
    session fuel' answers = .ok events := by
  induction answers using answersInduction generalizing events with
  | closed => exact h
  | leave answer rest hexit =>
    rw [session_leave hexit] at h ⊢
    exact h
  | invalid answer rest hexit hlookup ih =>
    rw [session_invalid hexit hlookup, map_eq_ok] at h ⊢
    obtain ⟨more, hmore, hevents⟩ := h
    exact ⟨more, ih hmore, hevents⟩
  | closedEarly answer c hlookup =>
    rw [session_closedEarly hlookup] at h ⊢
    exact h
  -- only a script that is run takes fuel
  | category answer c source rest hlookup ih =>
    rw [session_category hlookup, bind_eq_ok] at h ⊢
    obtain ⟨response, hresponse, h⟩ := h
    rw [map_eq_ok] at h
    obtain ⟨more, hmore, hevents⟩ := h
    exact ⟨response, respond_mono hfuel hresponse, map_eq_ok.mpr ⟨more, ih hmore, hevents⟩⟩

/-! ## Whole rounds -/

/-- Questions that all get an answer take the first of the answers. -/
theorem answered_append (h : ∀ question, .ask question none ∉ x) :
    Answered answers (x ++ xs) ↔ ∃ rest, answers = taken x ++ rest ∧ Answered rest xs := by
  induction x generalizing answers with
  | nil => simp [taken]
  | cons e x ih =>
    have hx : ∀ question, .ask question none ∉ x :=
      fun question hmem => h question (List.mem_cons_of_mem e hmem)
    cases e with
    | write t => exact ih hx
    | ask question answer =>
      cases answer with
      -- a question that is left unanswered would be the end of the answers
      | none => exact absurd List.mem_cons_self (h question)
      | some a =>
        rw [List.cons_append, Answered, ih hx]
        constructor
        · rintro ⟨ha, rest, hrest, hxs⟩
          obtain ⟨tail, rfl⟩ := List.head?_eq_some_iff.mp ha.symm
          exact ⟨rest, congrArg (a :: ·) hrest, hxs⟩
        · rintro ⟨rest, rfl, hxs⟩
          exact ⟨rfl, rest, rfl, hxs⟩

/-- In a complete round every question is answered. -/
theorem Round.ask_none_notMem (h : Round x) (question : Text) : .ask question none ∉ x := by
  cases h <;> simp [opening]

/-- From some fuel on, a session that starts with the answers of a round goes through the round and
then does what it does without those answers. -/
theorem Round.session_append (h : Round x) (rest : List Text) : ∃ fuel₀, ∀ fuel, fuel₀ ≤ fuel →
    session fuel (taken x ++ rest) = (session fuel rest).map (x.map Exchange.event ++ ·) := by
  cases h with
  | invalid hexit hlookup => exact ⟨0, fun fuel _ => session_invalid hexit hlookup⟩
  | hint hlookup hhint =>
    refine ⟨0, fun fuel _ => ?_⟩
    exact (session_category hlookup).trans (by rw [respond_hint hhint]; rfl)
  | @report answer source content c fuel₀ hlookup hhint hreport =>
    refine ⟨fuel₀, fun fuel hfuel => ?_⟩
    exact (session_category hlookup).trans
      (by rw [respond_report hhint, report_mono hfuel hreport]; rfl)

/-- A session behind a complete round is the round and then the session. -/
theorem Round.ends_append (h : Round x) : Ends (taken x ++ rest) events
    ↔ ∃ more, Ends rest more ∧ events = x.map Exchange.event ++ more := by
  obtain ⟨fuel₀, hsession⟩ := h.session_append rest
  -- both sides are compared with fuel that is enough for the round as well
  constructor
  · rintro ⟨fuel, hfuel⟩
    have hfuel := session_mono (Nat.le_max_left fuel fuel₀) hfuel
    rw [hsession _ (Nat.le_max_right fuel fuel₀), map_eq_ok] at hfuel
    obtain ⟨more, hmore, rfl⟩ := hfuel
    exact ⟨more, ⟨_, hmore⟩, rfl⟩
  · rintro ⟨more, ⟨fuel, hfuel⟩, rfl⟩
    refine ⟨max fuel fuel₀, ?_⟩
    rw [hsession _ (Nat.le_max_right fuel fuel₀), session_mono (Nat.le_max_left fuel fuel₀) hfuel]
    rfl

/-- The last round needs no fuel. -/
theorem LastRound.session_eq (h : LastRound x) (hanswered : Answered answers x) :
    session fuel answers = .ok (x.map Exchange.event) := by
  cases h with
  | leave hexit =>
    cases answers with
    | nil => simp [opening, Answered] at hanswered
    | cons answer rest =>
      obtain ⟨rfl⟩ : _ = answer := by simpa [opening, Answered] using hanswered
      exact session_leave hexit
  | closed =>
    cases answers with
    | nil => rfl
    | cons answer rest => simp [opening, Answered] at hanswered
  | closedEarly hlookup =>
    rcases answers with _ | ⟨answer, _ | ⟨source, rest⟩⟩
    · simp [opening, Answered] at hanswered
    · obtain ⟨rfl⟩ : _ = answer := by simpa [opening, Answered] using hanswered
      exact session_closedEarly hlookup
    · simp [opening, Answered] at hanswered

/-! ## Whole sessions -/

/-- What happens in a session with the given answers. -/
structure Protocol (answers : List Text) (rounds : List (List Exchange)) (last : List Exchange) :
    Prop where
  complete : ∀ x ∈ rounds, Round x
  leaves : LastRound last
  answered : Answered answers (rounds.flatten ++ last)

/-- A round in front of a protocol. -/
theorem Protocol.cons (hx : Round x) (h : Protocol rest rounds last) :
    Protocol (taken x ++ rest) (x :: rounds) last where
  complete := List.forall_mem_cons.mpr ⟨hx, h.complete⟩
  leaves := h.leaves
  answered := by
    rw [List.flatten_cons, List.append_assoc, answered_append hx.ask_none_notMem]
    exact ⟨rest, rfl, h.answered⟩

/-- What happens in a session that comes to its end is a protocol of its answers. -/
theorem exists_protocol (h : session fuel answers = .ok events) :
    ∃ rounds last, Protocol answers rounds last
      ∧ events = (rounds.flatten ++ last).map Exchange.event := by
  induction answers using answersInduction generalizing events with
  | closed =>
    cases h
    exact ⟨[], _, ⟨List.forall_mem_nil _, .closed, rfl, trivial⟩, rfl⟩
  | leave answer rest hexit =>
    rw [session_leave hexit] at h
    cases h
    exact ⟨[], _, ⟨List.forall_mem_nil _, .leave hexit, rfl, trivial⟩, rfl⟩
  | invalid answer rest hexit hlookup ih =>
    rw [session_invalid hexit hlookup, map_eq_ok] at h
    obtain ⟨more, hmore, rfl⟩ := h
    obtain ⟨rounds, last, hprotocol, rfl⟩ := ih hmore
    exact ⟨_ :: rounds, last, hprotocol.cons (.invalid hexit hlookup), rfl⟩
  | closedEarly answer c hlookup =>
    rw [session_closedEarly hlookup] at h
    cases h
    exact ⟨[], _, ⟨List.forall_mem_nil _, .closedEarly hlookup, rfl, rfl, trivial⟩, rfl⟩
  -- the script is asked for, and the response is a hint or a report
  | category answer c source rest hlookup ih =>
    rw [session_category hlookup, bind_eq_ok] at h
    obtain ⟨response, hresponse, h⟩ := h
    rw [map_eq_ok] at h
    obtain ⟨more, hmore, rfl⟩ := h
    obtain ⟨rounds, last, hprotocol, rfl⟩ := ih hmore
    cases hhint : c.requirement.hint? source with
    | some hint =>
      rw [respond_hint hhint] at hresponse
      cases hresponse
      exact ⟨_ :: rounds, last, hprotocol.cons (.hint hlookup hhint), rfl⟩
    | none =>
      rw [respond_report hhint, map_eq_ok] at hresponse
      obtain ⟨content, hcontent, rfl⟩ := hresponse
      exact ⟨_ :: rounds, last, hprotocol.cons (.report hlookup hhint hcontent), rfl⟩

/-- Whole rounds happen first, and what follows them is what happens without them. -/
theorem ends_flatMap_append (h : ∀ x ∈ rounds, Round x) :
    Ends (rounds.flatMap taken ++ rest) events
      ↔ ∃ more, Ends rest more ∧ events = rounds.flatten.map Exchange.event ++ more := by
  induction rounds generalizing events with
  | nil => simp
  | cons x rounds ih =>
    obtain ⟨hx, hrounds⟩ := List.forall_mem_cons.mp h
    rw [List.flatMap_cons, List.append_assoc, hx.ends_append]
    constructor
    · rintro ⟨between, hbetween, rfl⟩
      obtain ⟨more, hmore, rfl⟩ := (ih hrounds).mp hbetween
      exact ⟨more, hmore, by simp⟩
    · rintro ⟨more, hmore, rfl⟩
      exact ⟨_, (ih hrounds).mpr ⟨more, hmore, rfl⟩, by simp⟩

/-- Complete rounds take their answers, and leave the others to what follows. -/
theorem answered_flatten_append (h : ∀ x ∈ rounds, Round x) :
    Answered answers (rounds.flatten ++ xs)
      ↔ ∃ rest, answers = rounds.flatMap taken ++ rest ∧ Answered rest xs := by
  have hnone : ∀ question, .ask question none ∉ rounds.flatten := by
    intro question hmem
    obtain ⟨x, hx, hmem⟩ := List.mem_flatten.mp hmem
    exact (h x hx).ask_none_notMem question hmem
  rw [answered_append hnone, taken, List.filterMap_flatten, List.flatMap]
  rfl

/-- A protocol of the answers is what happens in the session. -/
theorem Protocol.ends (h : Protocol answers rounds last) :
    Ends answers ((rounds.flatten ++ last).map Exchange.event) := by
  obtain ⟨rest, rfl, hlast⟩ := (answered_flatten_append h.complete).mp h.answered
  rw [ends_flatMap_append h.complete]
  exact ⟨_, ⟨0, h.leaves.session_eq hlast⟩, List.map_append⟩

/-! ## The last words -/

theorem ne_farewell {t : Text} {u : UInt16} (h : t.head? = some u) (hu : u ≠ 0x45) :
    farewell ≠ t := by
  rintro rfl
  exact hu (Option.some.inj h).symm

/-- The menu does not say farewell. -/
theorem farewell_notMem_opening (answer : Option Text) :
    .write farewell ∉ (opening answer).map Exchange.event := by
  have htext : farewell ≠ text := ne_farewell (u := 0x50) rfl (by decide)
  simpa [opening, Exchange.event] using htext

/-- No round but the last takes its leave: the texts of the others start with other letters. -/
theorem Round.farewell_notMem (h : Round x) : .write farewell ∉ x.map Exchange.event := by
  have hopening := farewell_notMem_opening
  cases h with
  | invalid =>
    have hne : farewell ≠ invalidChoice := ne_farewell (u := 0x49) rfl (by decide)
    simpa [hopening, Exchange.event] using hne
  | @hint _ _ hint =>
    have hne : farewell ≠ "Syntax Error: " ++ hint ++ "\n\n" :=
      ne_farewell (u := 0x53) rfl (by decide)
    simpa [hopening, Exchange.event] using hne
  | @report _ source content _ _ _ _ hreport =>
    obtain ⟨r, -, rfl⟩ := report_eq_ok.mp hreport
    have hne : farewell ≠ (reportOf source r).endLine := ne_farewell (u := 0x3D) rfl (by decide)
    simpa [hopening, Exchange.event] using hne

/-- The last round says farewell once, at its end. -/
theorem LastRound.farewell (h : LastRound x) :
    ∃ before, x.map Exchange.event = before ++ [.write farewell] ∧ .write farewell ∉ before := by
  cases h with
  | leave => exact ⟨_, List.map_append, farewell_notMem_opening _⟩
  | closed => exact ⟨_, List.map_append, farewell_notMem_opening _⟩
  | @closedEarly answer c =>
    refine ⟨(opening (some answer)).map Exchange.event ++ [.ask c.prompt], rfl, ?_⟩
    simpa using farewell_notMem_opening (some answer)

/-- A protocol says farewell once, at its end. -/
theorem Protocol.farewell (h : Protocol answers rounds last) : ∃ before,
      (rounds.flatten ++ last).map Exchange.event = before ++ [.write farewell]
        ∧ .write farewell ∉ before := by
  obtain ⟨before, hlast, hbefore⟩ := h.leaves.farewell
  refine ⟨rounds.flatten.map Exchange.event ++ before, ?_, ?_⟩
  · rw [List.map_append, hlast, List.append_assoc]
  · rw [List.mem_append, not_or]
    refine ⟨fun hmem => ?_, hbefore⟩
    rw [List.map_flatten, List.mem_flatten] at hmem
    obtain ⟨_, hround, hmem⟩ := hmem
    obtain ⟨x, hx, rfl⟩ := List.mem_map.mp hround
    exact (h.complete x hx).farewell_notMem hmem

/-! ## Sessions that end -/

/-- In a session that comes to its end, every script that is run comes to its own. -/
theorem Runs.evaluate_eq_ok (h : Runs answers source)
    (hsession : session fuel answers = .ok events) :
    ∃ r, Script.evaluate fuel source = .ok r := by
  induction h generalizing events with
  -- the response was given, so the script came to its end
  | now hlookup hhint =>
    rw [session_category hlookup, bind_eq_ok, respond_report hhint] at hsession
    obtain ⟨response, hresponse, -⟩ := hsession
    obtain ⟨content, hcontent, -⟩ := map_eq_ok.mp hresponse
    obtain ⟨r, hr, -⟩ := report_eq_ok.mp hcontent
    exact ⟨r, hr⟩
  | afterInvalid hexit hlookup _ ih =>
    rw [session_invalid hexit hlookup, map_eq_ok] at hsession
    obtain ⟨more, hmore, -⟩ := hsession
    exact ih hmore
  | afterSource hlookup _ ih =>
    rw [session_category hlookup, bind_eq_ok] at hsession
    obtain ⟨response, -, hsession⟩ := hsession
    obtain ⟨more, hmore, -⟩ := map_eq_ok.mp hsession
    exact ih hmore

/-- If every script that is run comes to its end, so does the session. -/
theorem exists_ends (h : ∀ source, Runs answers source → ∃ fuel r,
    Script.evaluate fuel source = .ok r) : ∃ events, Ends answers events := by
  induction answers using answersInduction with
  | closed => exact ⟨_, 0, rfl⟩
  | leave answer rest hexit => exact ⟨_, 0, session_leave hexit⟩
  | invalid answer rest hexit hlookup ih =>
    obtain ⟨more, hmore⟩ := ih fun source hruns => h source (.afterInvalid hexit hlookup hruns)
    exact ⟨_, (Round.invalid hexit hlookup).ends_append.mpr ⟨more, hmore, rfl⟩⟩
  | closedEarly answer c hlookup => exact ⟨_, 0, session_closedEarly hlookup⟩
  | category answer c source rest hlookup ih =>
    obtain ⟨more, hmore⟩ := ih fun source hruns => h source (.afterSource hlookup hruns)
    cases hhint : c.requirement.hint? source with
    | some hint => exact ⟨_, (Round.hint hlookup hhint).ends_append.mpr ⟨more, hmore, rfl⟩⟩
    -- the fuel for this script and that for the rest are joined in `Round.ends_append`
    | none =>
      obtain ⟨fuel, r, hr⟩ := h source (.now hlookup hhint)
      have hreport : Console.report fuel source = .ok (reportOf source r) :=
        report_eq_ok.mpr ⟨r, hr, rfl⟩
      exact ⟨_, (Round.report hlookup hhint hreport).ends_append.mpr ⟨more, hmore, rfl⟩⟩

/-- A session ends exactly if all the sources that it runs do. Its events are then those of whole
rounds and of a last one, which take the answers in order, and its last words are said once. Whole
rounds leave nothing behind: with their answers before others, they happen first, and then what
happens with the others alone. -/
theorem ends_in_rounds (answers : List Text) :
    ((∃ events, Ends answers events) ↔
      ∀ source, Runs answers source → ∃ fuel r, Script.evaluate fuel source = .ok r)
    ∧ (∀ events, Ends answers events ↔ ∃ rounds last, Protocol answers rounds last
        ∧ events = (rounds.flatten ++ last).map Exchange.event)
    ∧ (∀ events, Ends answers events →
        ∃ before, events = before ++ [.write farewell] ∧ .write farewell ∉ before)
    ∧ ∀ rounds : List (List Exchange), (∀ x ∈ rounds, Round x) → ∀ events,
        (Ends (rounds.flatMap taken ++ answers) events
          ↔ ∃ more, Ends answers more ∧ events = rounds.flatten.map Exchange.event ++ more) := by
  refine ⟨⟨?_, exists_ends⟩, fun events => ⟨?_, ?_⟩, ?_, ?_⟩
  · rintro ⟨events, fuel, hsession⟩ source hruns
    exact ⟨fuel, hruns.evaluate_eq_ok hsession⟩
  · rintro ⟨fuel, hsession⟩
    exact exists_protocol hsession
  · rintro ⟨rounds, last, hprotocol, rfl⟩
    exact hprotocol.ends
  · rintro events ⟨fuel, hsession⟩
    obtain ⟨rounds, last, hprotocol, rfl⟩ := exists_protocol hsession
    exact hprotocol.farewell
  · intro rounds hrounds events
    exact ends_flatMap_append hrounds

/-- An invalid choice, a source for a report, and a choice after which the input is closed. -/
def cutShort : List Text := ["9", " 7 ", "b", "1"]

/-- The only script that is run here. -/
theorem runs_cutShort (h : Runs cutShort source) : source = "b" := by
  have hnine : categories.lookup (Text.trim "9") = none := rfl
  cases h with
  | now h => cases hnine.symm.trans h
  | afterSource h => cases hnine.symm.trans h
  | afterInvalid _ _ h =>
    cases h with
    | now => rfl
    | afterInvalid _ h => cases h
    | afterSource _ h =>
      cases h with
      | afterInvalid _ h => cases h

theorem ends_in_rounds_cutShort : ∃ rounds : List (List Exchange), ∃ more before,
    (∀ source, Runs cutShort source → ∃ fuel r, Script.evaluate fuel source = .ok r)
      ∧ (∀ x ∈ rounds, Round x) ∧ rounds.length = 2
      ∧ rounds.flatMap taken ++ [("1" : Text)] = cutShort
      ∧ Ends ["1"] more ∧ Ends cutShort (rounds.flatten.map Exchange.event ++ more)
      ∧ rounds.flatten.map Exchange.event ++ more = before ++ [.write farewell]
      ∧ .write farewell ∉ before := by
  have hparse : Script.parse "b" = .ok ⟨⟨⟨1, 1⟩, ⟨1, 2⟩⟩, [.reference ⟨⟨1, 1⟩, ⟨1, 2⟩⟩ "b"]⟩ := rfl
  have hevaluate : Script.evaluate 0 "b"
      = .ok ⟨[], some ⟨.undefinedName "b", ⟨1, 1⟩⟩, .empty, none⟩ := by
    rw [Script.evaluate_of_parse_eq_ok hparse]
    rfl
  have hruns : ∀ source, Runs cutShort source → ∃ fuel r, Script.evaluate fuel source = .ok r := by
    intro source h
    exact ⟨0, _, runs_cutShort h ▸ hevaluate⟩
  have hinvalid : Round (opening (some "9") ++ [.write invalidChoice]) := .invalid (by decide) rfl
  obtain ⟨c, hseven, hhint⟩ : ∃ c, categories.lookup (Text.trim " 7 ") = some c
    ∧ c.requirement.hint? "b" = none := ⟨_, rfl, rfl⟩
  have hreport := Round.report hseven hhint (report_eq_ok.mpr ⟨_, hevaluate, rfl⟩)
  have hrounds := List.forall_mem_cons.mpr ⟨hinvalid, List.forall_mem_singleton.mpr hreport⟩
  obtain ⟨more, hmore⟩ : ∃ more, Ends ["1"] more := ⟨_, 0, session_closedEarly rfl⟩
  have hends := ((ends_in_rounds ["1"]).2.2.2 _ hrounds _).mpr ⟨more, hmore, rfl⟩
  obtain ⟨before, hbefore, hnotMem⟩ := (ends_in_rounds cutShort).2.2.1 _ hends
  exact ⟨_, more, before, hruns, hrounds, rfl, rfl, hmore, hends, hbefore, hnotMem⟩

end Menu

end Plume.Console
