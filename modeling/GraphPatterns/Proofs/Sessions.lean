/-
A console session is a function of its last good pattern. A line changes nothing in a session but the
counters that are kept, and those only if it is a pattern that is matched (`Session.answer_keeping`). So
after any lines the counters are those of the last such pattern and all else is as it was at the start
(`Session.after_keeping`), the mode included, although it is changed on the way; and the answer to a
pattern depends on that line alone (`Session.remembers_last_matched`).

The one thing that ends a session is a match with a name that is too wide to be aligned line by line.
-/
import GraphPatterns.Console.InPlace
import GraphPatterns.Proofs.ConsoleLines
import GraphPatterns.Proofs.GraphScan
import GraphPatterns.Proofs.Printing

namespace GraphPatterns

namespace Session

/-- The answer to a line, and the session after it. -/
def answer (printer : Printer) (s : Session) (l : Line) : Except Halt Answer × Session :=
  Steps.run (Work.respond printer l.text l.milliseconds) s

/-- The session after some lines, if it has not crashed. -/
def after (printer : Printer) (s : Session) : List Line → Option Session
  | [] => some s
  | l :: lines =>
    match s.answer printer l with
    | (.ok _, s) => s.after printer lines
    | (.error _, _) => none

/-- The session with other counters. -/
def keeping (s : Session) (last : Option Tally) : Session := { s with last := last }

/-! ## What becomes of a pattern -/

/-- A pattern is read and matched. -/
def Finds (s : Session) (query : String) (found : List Match) (t : Tally) : Prop :=
  ∃ p, GraphPattern.parse query = .ok p ∧ p.matches ⟨s.graph.store, s.config, []⟩ = .ok (found, t)

/-- A pattern cannot be read, or makes no sense. -/
inductive Refuses (s : Session) (query : String) : Error → Prop where
  | unread {e : ParseError} (h : GraphPattern.parse query = .error e) : s.Refuses query (.parse e)
  | senseless {p : GraphPattern} {e : PatternError} (hp : GraphPattern.parse query = .ok p)
    (h : p.matches ⟨s.graph.store, s.config, []⟩ = .error e) : s.Refuses query (.pattern e)

/-- A line is a pattern that is matched, and these are the counters of its search. -/
def Counts (s : Session) (l : Line) (t : Tally) : Prop :=
  ∃ query marked found, l.Asks query marked ∧ s.Finds query found t

/-- Of some lines, these are the counters of the last one that is a pattern and is matched. -/
def LastCounts (s : Session) (lines : List Line) (t : Tally) : Prop :=
  ∃ before l later, lines = before ++ l :: later ∧ s.Counts l t ∧ ∀ l' ∈ later, ∀ t', ¬s.Counts l' t'

/-- The matches of a line are to be printed line by line, and a name in them is too wide for that. -/
def IsTooWide (s : Session) (l : Line) : Prop :=
  ∃ query marked found t, l.Asks query marked ∧ (s.mode = .vertical ∨ marked = true ∧ s.mode = .table) ∧
    s.Finds query found t ∧ ∃ m ∈ found, ∃ name ∈ m.bindings.keys, Report.maxAligned < name.utf8ByteSize

/-- A pattern is answered with its matches: line by line if that is the mode of the session or a mark asks a
session for it that prints tables, else in the mode of the session. JSON may fail to be written. -/
def ShowsMatches (first : Session) (printer : Printer) (l : Line) (marked : Bool) (found : List Match)
    (t : Tally) (a : Answer) : Prop :=
  let mode := if marked = true ∧ first.mode = .table then .vertical else first.mode
  (∃ text, printer.print mode found l.milliseconds = .ok text ∧
    a = .message (text ++ first.note first.mode t)) ∨
  ∃ reason, printer.print mode found l.milliseconds = .error (.unwritten reason) ∧
    a = .failure (unwrittenMessage reason)

/-- What a session answers to a line, given the session before the first line. -/
structure Answers (printer : Printer) (first s : Session) (l : Line) : Prop where
  nothing : Text.Trims l.text.toList [] → s.answer printer l = (.ok .skip, s)
  help : ∀ word ∈ ["help", "h", "?"], l.Says word → s.answer printer l = (.ok (.message help), s)
  exit : ∀ word ∈ ["quit", "exit", "q"], l.Says word → s.answer printer l = (.ok .exit, s)
  /-- The counters that are kept are shown if there are any. -/
  stats : l.Says "stats" →
    match s.last with
    | some t => ∃ text, printer.counters? t = some text ∧ s.answer printer l = (.ok (.message text), s)
    | none => s.answer printer l = (.ok (.failure "尚未执行任何匹配"), s)
  /-- The answer to a pattern does not depend on the lines before it. -/
  same : ∀ {query : String} {marked : Bool}, l.Asks query marked →
    (s.answer printer l).1 = (first.answer printer l).1
  /-- A pattern that cannot be read or makes no sense leaves the session as it is. -/
  refused : ∀ {query : String} {marked : Bool} {e : Error}, l.Asks query marked →
    first.Refuses query e → s.answer printer l = (.ok (.failure (e.message?.getD "")), s)
  /-- Of a pattern that is matched the session keeps the counters, be its matches printed or not. -/
  matched : ∀ {query : String} {marked : Bool} {found : List Match} {t : Tally}, l.Asks query marked →
    first.Finds query found t → ¬first.IsTooWide l →
    ∃ a, first.ShowsMatches printer l marked found t a ∧ s.answer printer l = (.ok a, s.keeping (some t))
  tooWide : first.IsTooWide l → (s.answer printer l).1 = .error (.unprinted .crash)

variable {printer : Printer} {s : Session} {l : Line} {query : String} {marked : Bool}
variable {found : List Match} {t : Tally}

theorem finds_iff : s.Finds query found t ↔ s.find query = .ok (found, t) := by
  unfold Finds find
  cases GraphPattern.parse query with
  | error e => exact ⟨nofun, nofun⟩
  | ok p =>
    change _ ↔ Except.mapError Error.pattern (p.matches ⟨s.graph.store, s.config, []⟩) = _
    constructor
    · rintro ⟨_, hp, hmatches⟩
      cases hp
      rw [hmatches]
      rfl
    · intro h
      refine ⟨p, rfl, ?_⟩
      cases hmatches : p.matches ⟨s.graph.store, s.config, []⟩ <;> rw [hmatches] at h <;> cases h
      rfl

theorem Refuses.find_eq {e : Error} (h : s.Refuses query e) : s.find query = .error e := by
  unfold find
  cases h with
  | unread h =>
    rw [h]
    rfl
  | senseless hp h =>
    rw [hp]
    change Except.mapError Error.pattern _ = _
    rw [h]
    rfl

/-! ## The last line that is matched -/

/-- The counters of the search for the pattern of a line, if the line is a pattern that is matched. -/
def tally? (s : Session) (l : Line) : Option Tally :=
  l.pattern?.bind fun p => (s.find p.1).toOption.map (·.2)

theorem counts_iff : s.Counts l t ↔ s.tally? l = some t := by
  unfold Counts tally?
  simp only [Line.asks_iff, finds_iff]
  constructor
  · rintro ⟨query, marked, found, hl, hfind⟩
    rw [hl, Option.bind_some, hfind]
    rfl
  · intro h
    obtain ⟨⟨query, marked⟩, hl, h⟩ := Option.bind_eq_some_iff.mp h
    obtain ⟨⟨found, _⟩, hfind, rfl⟩ := Option.map_eq_some_iff.mp h
    refine ⟨query, marked, found, hl, ?_⟩
    cases hresult : s.find query <;> rw [hresult] at hfind <;> cases hfind
    rfl

theorem lastCounts_iff {lines : List Line} :
    s.LastCounts lines t ↔ (lines.filterMap s.tally?).getLast? = some t := by
  have hnone (l : Line) : (∀ t', ¬s.tally? l = some t') ↔ s.tally? l = none :=
    Option.eq_none_iff_forall_ne_some.symm
  rw [List.getLast?_filterMap, List.findSome?_eq_some_iff]
  unfold LastCounts
  simp only [counts_iff, hnone]
  constructor
  · rintro ⟨before, l, later, rfl, hl, hlater⟩
    exact ⟨later.reverse, l, before.reverse, by simp, hl, by simpa using hlater⟩
  · rintro ⟨later, l, before, hlines, hl, hlater⟩
    refine ⟨before.reverse, l, later.reverse, ?_, hl, by simpa using hlater⟩
    rw [← List.reverse_reverse lines, hlines]
    simp

/-! ## The answer to a line -/

theorem answer_of_pattern (hl : l.pattern? = some (query, marked)) : s.answer printer l =
    match s.find query with
    | .error e => (.ok (.failure (e.message?.getD "")), s)
    | .ok (found, t) =>
      match printer.print (s.modeFor marked) found l.milliseconds with
      | .ok text => (.ok (.message (text ++ s.note s.mode t)), s.keeping (some t))
      | .error (.unwritten reason) => (.ok (.failure (unwrittenMessage reason)), s.keeping (some t))
      | .error .crash =>
        (.error (.unprinted .crash), { s with mode := s.modeFor marked, last := some t }) := by
  rw [answer, Work.run_respond]
  unfold Line.pattern? at hl
  split at hl
  · next line hline =>
    simp only [hline, Option.some.inj hl]
    rfl
  · cases hl

theorem answer_of_error (hl : l.pattern? = some (query, marked)) {e : Error} (h : s.find query = .error e) :
    s.answer printer l = (.ok (.failure (e.message?.getD "")), s) := by
  rw [answer_of_pattern hl, h]

theorem modeFor_eq :
    s.modeFor marked = if marked = true ∧ s.mode = .table then .vertical else s.mode := by
  simp [modeFor]

/-- A pattern that is matched ends the session if its matches have no text; else the counters are kept. -/
theorem answer_of_found (hl : l.pattern? = some (query, marked)) (h : s.find query = .ok (found, t)) :
    printer.print (s.modeFor marked) found l.milliseconds = .error .crash ∧
      (s.answer printer l).1 = .error (.unprinted .crash) ∨
    printer.print (s.modeFor marked) found l.milliseconds ≠ .error .crash ∧
      ∃ a, s.ShowsMatches printer l marked found t a ∧ s.answer printer l = (.ok a, s.keeping (some t)) := by
  rw [answer_of_pattern hl, h]
  unfold ShowsMatches
  rw [← modeFor_eq]
  simp only
  rcases printer.print (s.modeFor marked) found l.milliseconds with (_ | reason) | text
  · exact .inl ⟨rfl, rfl⟩
  · exact .inr ⟨nofun, _, .inr ⟨reason, rfl, rfl⟩, rfl⟩
  · exact .inr ⟨nofun, _, .inl ⟨text, rfl, rfl⟩, rfl⟩

/-- The counters can be shown, whatever they are. -/
theorem answer_of_stats (hprinter : printer.Draws) (h : Request.ofLine l.text = .stats) :
    match s.last with
    | some t => ∃ text, printer.counters? t = some text ∧ s.answer printer l = (.ok (.message text), s)
    | none => s.answer printer l = (.ok (.failure "尚未执行任何匹配"), s) := by
  rw [answer, Work.run_respond, h]
  cases s.last with
  | none => rfl
  | some t =>
    obtain ⟨text, htext⟩ := Option.isSome_iff_exists.mp (Printer.isSome_counters? hprinter t)
    simp only [htext]
    exact ⟨text, rfl, rfl⟩

theorem answer_of_no_pattern (hprinter : printer.Draws) (hl : l.pattern? = none) :
    ∃ a, s.answer printer l = (.ok a, s) := by
  unfold Line.pattern? at hl
  cases hline : Request.ofLine l.text with
  | pattern line =>
    rw [hline] at hl
    cases hl
  | stats =>
    have hanswer := answer_of_stats (s := s) hprinter hline
    split at hanswer
    · obtain ⟨text, -, hanswer⟩ := hanswer
      exact ⟨_, hanswer⟩
    · exact ⟨_, hanswer⟩
  | nothing | help | exit =>
    rw [answer, Work.run_respond, hline]
    exact ⟨_, rfl⟩

/-! ## Matches that have no text -/

theorem IsTooWide.exists_counts (h : s.IsTooWide l) : ∃ t, s.Counts l t := by
  obtain ⟨query, marked, found, t, hl, -, hfind, -⟩ := h
  exact ⟨t, query, marked, found, hl, hfind⟩

theorem not_isTooWide (h : s.tally? l = none) : ¬s.IsTooWide l := fun hwide => by
  obtain ⟨t, ht⟩ := hwide.exists_counts
  rw [counts_iff, h] at ht
  cases ht

theorem isTooWide_iff (hl : l.pattern? = some (query, marked)) (h : s.find query = .ok (found, t)) :
    s.IsTooWide l ↔ s.modeFor marked = .vertical ∧
      ∃ m ∈ found, ∃ name ∈ m.bindings.keys, Report.maxAligned < name.utf8ByteSize := by
  have hmode : s.modeFor marked = .vertical ↔ s.mode = .vertical ∨ marked = true ∧ s.mode = .table := by
    rw [modeFor_eq]
    split <;> simp_all
  rw [hmode]
  constructor
  · rintro ⟨_, _, _, _, hl', hmode, h', hwide⟩
    cases hl.symm.trans hl'.pattern?_eq
    cases h.symm.trans (finds_iff.mp h')
    exact ⟨hmode, hwide⟩
  · rintro ⟨hmode, hwide⟩
    exact ⟨query, marked, found, t, Line.asks_iff.mpr hl, hmode, finds_iff.mpr h, hwide⟩

/-- What a session on a graph that was built by operations finds has a text, unless it is too wide. -/
theorem print_eq_crash_iff (hprinter : printer.Draws) (hg : s.graph.Built)
    (hl : l.pattern? = some (query, marked)) (h : s.find query = .ok (found, t)) :
    printer.print (s.modeFor marked) found l.milliseconds = .error .crash ↔ s.IsTooWide l := by
  obtain ⟨p, hparse, hmatches⟩ := finds_iff.mpr h
  have hprints : ∀ m ∈ found, m.Prints :=
    GraphPattern.matches_prints hg (GraphPattern.wellFormed_of_parse hparse) (by rw [hmatches]; rfl)
  rw [Printer.print_eq_crash_iff hprinter hprints, isTooWide_iff hl h]

/-! ## Lines one after the other -/

@[simp] theorem find_keeping (last : Option Tally) : (s.keeping last).find query = s.find query := rfl

@[simp] theorem modeFor_keeping (last : Option Tally) :
    (s.keeping last).modeFor marked = s.modeFor marked := rfl

/-- **A line changes nothing but the counters**, whatever they are before it, and those only if it is a
pattern that is matched. -/
theorem answer_keeping (hprinter : printer.Draws) (hg : s.graph.Built) (l : Line) (last : Option Tally) :
    s.IsTooWide l ∧ ((s.keeping last).answer printer l).1 = .error (.unprinted .crash) ∨
      ¬s.IsTooWide l ∧
        ∃ a, (s.keeping last).answer printer l = (.ok a, s.keeping ((s.tally? l).or last)) := by
  cases hl : l.pattern? with
  | none =>
    have htally : s.tally? l = none := by rw [tally?, hl, Option.bind_none]
    obtain ⟨a, ha⟩ := answer_of_no_pattern (s := s.keeping last) hprinter hl
    exact .inr ⟨not_isTooWide htally, a, by rw [ha, htally]; rfl⟩
  | some pattern =>
    obtain ⟨query, marked⟩ := pattern
    cases hfind : s.find query with
    | error e =>
      have htally : s.tally? l = none := by
        rw [tally?, hl, Option.bind_some, hfind]
        rfl
      have hanswer : (s.keeping last).answer printer l = _ := answer_of_error hl hfind
      exact .inr ⟨not_isTooWide htally, _, by rw [hanswer, htally]; rfl⟩
    | ok result =>
      obtain ⟨found, t⟩ := result
      have hcrash := print_eq_crash_iff hprinter hg hl hfind
      have htally : s.tally? l = some t := by
        rw [tally?, hl, Option.bind_some, hfind]
        rfl
      rw [htally]
      rcases @answer_of_found printer (s.keeping last) _ _ _ _ _ hl hfind with
        ⟨hprint, hanswer⟩ | ⟨hprint, a, -, hanswer⟩
      · exact .inl ⟨hcrash.mp hprint, hanswer⟩
      · exact .inr ⟨fun hwide => hprint (hcrash.mpr hwide), a, hanswer⟩

/-- After some lines all but the counters is as it was, and the counters are those of the last pattern
that was matched. -/
theorem after_keeping (hprinter : printer.Draws) (hg : s.graph.Built) (lines : List Line)
    (last : Option Tally) :
    (∃ l ∈ lines, s.IsTooWide l) ∧ (s.keeping last).after printer lines = none ∨
      (¬∃ l ∈ lines, s.IsTooWide l) ∧ (s.keeping last).after printer lines =
        some (s.keeping ((lines.filterMap s.tally?).getLast?.or last)) := by
  induction lines generalizing last with
  | nil => exact .inr ⟨nofun, rfl⟩
  | cons l lines ih =>
    rw [List.exists_mem_cons_iff, not_or, after]
    rcases answer_keeping hprinter hg l last with ⟨hwide, hanswer⟩ | ⟨hfits, a, hanswer⟩
    · refine .inl ⟨.inl hwide, ?_⟩
      split
      · next hok =>
        rw [hok] at hanswer
        cases hanswer
      · rfl
    · rw [hanswer]
      rcases ih ((s.tally? l).or last) with ⟨hwide, hafter⟩ | ⟨hfit, hafter⟩
      · exact .inl ⟨.inr hwide, hafter⟩
      · refine .inr ⟨⟨hfits, hfit⟩, ?_⟩
        have hlast : ((l :: lines).filterMap s.tally?).getLast? =
            (lines.filterMap s.tally?).getLast?.or (s.tally? l) := by
          rw [List.filterMap_cons]
          cases s.tally? l with
          | none => rw [Option.or_none]
          | some t =>
            rw [List.getLast?_cons]
            cases (lines.filterMap s.tally?).getLast? <;> rfl
        rw [hlast, Option.or_assoc]
        exact hafter

/-- Other counters change the answer to no line but the one that asks for them. -/
theorem answers_keeping (hprinter : printer.Draws) (hg : s.graph.Built) (l : Line)
    (last : Option Tally) : s.Answers printer (s.keeping last) l where
  nothing h := by rw [answer, Work.run_respond, Line.ofLine_of_nothing h]
  help word hword h := by rw [answer, Work.run_respond, Line.ofLine_of_help h hword]
  exit word hword h := by rw [answer, Work.run_respond, Line.ofLine_of_exit h hword]
  stats h := answer_of_stats hprinter (Line.ofLine_of_stats h)
  same {query marked} hl := by
    rw [answer_of_pattern hl.pattern?_eq, answer_of_pattern hl.pattern?_eq, find_keeping,
      modeFor_keeping]
    cases s.find query with
    | error e => rfl
    | ok result =>
      obtain ⟨found, t⟩ := result
      simp only
      rcases printer.print (s.modeFor marked) found l.milliseconds with (_ | _) | _ <;> rfl
  refused hl h := answer_of_error hl.pattern?_eq h.find_eq
  matched hl h hfits := by
    have hl := hl.pattern?_eq
    have h := finds_iff.mp h
    refine ((answer_of_found (s := s.keeping last) hl h).resolve_left fun hcrash => hfits ?_).2
    exact (print_eq_crash_iff hprinter hg hl h).mp hcrash.1
  tooWide hwide := ((answer_keeping hprinter hg l last).resolve_right fun h => h.1 hwide).2

/-- **A session is a function of its last good pattern.** After any lines the mode is the one that was
chosen at the start, and the counters are those of the last line that was a pattern and was matched. The
session ends before that only if matches are to be printed line by line and a name in them is too wide. -/
theorem remembers_last_matched (printer : Printer) (hprinter : printer.Draws)
    (operations : List Graph.Operation) (config : MatchConfig) (mode : PrintMode) (lines : List Line) :
    let first := start (Graph.run operations) config mode
    (first.after printer lines = none ↔ ∃ l ∈ lines, first.IsTooWide l) ∧
      ∀ s, first.after printer lines = some s →
        s.graph = Graph.run operations ∧ s.config = first.config ∧ s.mode = mode ∧
          (∀ t, s.last = some t ↔ first.LastCounts lines t) ∧ ∀ l, first.Answers printer s l := by
  intro first
  have hg : first.graph.Built := Graph.built_run operations
  have hafter := after_keeping hprinter hg lines none
  rw [Option.or_none] at hafter
  change _ ∧ first.after printer lines = none ∨ _ ∧ first.after printer lines = _ at hafter
  rcases hafter with ⟨hwide, hnone⟩ | ⟨hfit, hsome⟩
  · rw [hnone]
    exact ⟨⟨fun _ => hwide, fun _ => rfl⟩, nofun⟩
  · rw [hsome]
    refine ⟨⟨nofun, fun hwide => absurd hwide hfit⟩, ?_⟩
    rintro s ⟨⟩
    exact ⟨rfl, rfl, rfl, fun t => lastCounts_iff.symm, fun l => answers_keeping hprinter hg l _⟩

/-- A session on a graph with one vertex. -/
def onPoint : Session := start (Graph.run [.addVertex [] []]) {} .table

theorem finds_point :
    onPoint.Finds "(a)" [⟨[("a", .vertex ⟨1⟩)], [⟨[⟨1⟩], []⟩]⟩] ⟨1, 0, 0, 1, false⟩ := by
  let p : PathPattern := { expr := .term [.mk (.node { name := some "a" }) none] }
  let env : Env := ⟨onPoint.graph.store, onPoint.config, []⟩
  let m : Match := ⟨[("a", .vertex ⟨1⟩)], [⟨[⟨1⟩], []⟩]⟩
  refine ⟨p.toGraphPattern, rfl, ?_⟩
  let j := p.toGraphPattern.join env
  let s := (Search.begin env {} (.compile p) []).2
  obtain ⟨u, hfound, hend⟩ : ∃ u, s.next env {} = (⟨1, 0, 0, 0, false⟩, some (⟨m.bindings, ⟨[⟨1⟩], []⟩⟩, u)) ∧
      u.next env ⟨1, 0, 0, 1, false⟩ = (⟨1, 0, 0, 1, false⟩, none) :=
    ⟨_, (Search.next_goesOn rfl).trans <| (Search.next_goesOn rfl).trans <| Search.next_found rfl,
      Search.next_exhausted rfl⟩
  have hyields : j.step ⟨[⟨s, [], []⟩], {}⟩ = .yields m ⟨[⟨u, [], []⟩], ⟨1, 0, 0, 1, false⟩⟩ := by
    unfold Join.step
    dsimp only
    rw [show j.env = env from rfl, hfound]
    rfl
  have hcollect : j.collect #[] ⟨[⟨s, [], []⟩], {}⟩ = ([m], ⟨[], ⟨1, 0, 0, 1, false⟩⟩) :=
    (Join.collect_yields _ hyields).trans <|
      (Join.collect_goesOn _ (Join.step_of_none rfl rfl hend)).trans (Join.collect_exhausted _ rfl)
  rw [GraphPattern.matches_of_search (j := j) (c := ⟨[⟨s, [], []⟩], {}⟩) rfl, hcollect]

theorem not_isTooWide_point (hl : l.Asks "(a)" marked) : ¬onPoint.IsTooWide l := by
  rw [isTooWide_iff hl.pattern?_eq (finds_iff.mp finds_point)]
  rintro ⟨-, m, hm, name, hname, hwide⟩
  obtain rfl := List.mem_singleton.mp hm
  obtain rfl := List.mem_singleton.mp hname
  exact absurd hwide (by decide)

/-- After a pattern and a line that fails although it has a mark, tables are printed still, the same line
fails in the same way, another mark shows the matches line by line, and the counters are those of the
pattern. -/
theorem remembers_last_matched_point :
    let unread : Line := ⟨"MATCH (a \\G", 0⟩
    let sheet := "*************************** 1. row ***************************
   a: v1
path: (v1)

1 row(s) in set (3 ms)
"
    let counters := [["Starts Tried", "1"], ["Edges Expanded", "0"], ["Branches Pruned", "0"],
      ["Results", "1"], ["Truncated", "false"]]
    Printer.standard.Draws ∧ ∃ s, onPoint.after .standard [⟨" (a)", 3⟩, unread] = some s ∧
      s.mode = .table ∧
      s.answer .standard unread = (.ok (.failure "解析错误: Expected ')', got None at position 8"), s) ∧
      (s.answer .standard ⟨"(a) \\g", 3⟩).1 = .ok (.message sheet) ∧
      s.answer .standard ⟨" Stats", 0⟩ = (.ok (.message (Table.render ["Counter", "Value"] counters)), s) := by
  intro unread sheet counters
  have hasks : (⟨" (a)", 3⟩ : Line).Asks "(a)" false := Line.asks_iff.mpr rfl
  have hunread : unread.Asks "MATCH (a" true := Line.asks_iff.mpr (by decide +kernel)
  have hmarked : (⟨"(a) \\g", 3⟩ : Line).Asks "(a)" true := Line.asks_iff.mpr rfl
  have hrefused : onPoint.Refuses "MATCH (a" (.parse _) := .unread rfl
  have hnone (t : Tally) : ¬onPoint.Counts unread t := by
    rintro ⟨_, _, _, hl, h⟩
    cases hunread.pattern?_eq.symm.trans hl.pattern?_eq
    cases hrefused.find_eq.symm.trans (finds_iff.mp h)
  obtain ⟨hcrash, hafter⟩ := remembers_last_matched .standard Printer.draws_standard
    [.addVertex [] []] {} .table [⟨" (a)", 3⟩, unread]
  cases hs : onPoint.after .standard [⟨" (a)", 3⟩, unread] with
  | none =>
    obtain ⟨l, hl, hwide⟩ := hcrash.mp hs
    rcases List.mem_pair.mp hl with rfl | rfl
    · exact absurd hwide (not_isTooWide_point hasks)
    · obtain ⟨t, ht⟩ := hwide.exists_counts
      exact absurd ht (hnone t)
  | some s =>
    obtain ⟨-, -, hmode, hlast, hanswers⟩ := hafter s hs
    refine ⟨Printer.draws_standard, s, rfl, hmode, (hanswers _).refused hunread hrefused, ?_, ?_⟩
    · have hsheet : Printer.standard.print .vertical [⟨[("a", .vertex ⟨1⟩)], [⟨[⟨1⟩], []⟩]⟩] 3 = .ok sheet := by
        decide +kernel
      obtain ⟨a, hshows, hanswer⟩ := (hanswers _).matched hmarked finds_point (not_isTooWide_point hmarked)
      rw [hanswer]
      rcases hshows with ⟨text, htext, rfl⟩ | ⟨reason, hreason, -⟩
      · change Printer.standard.print .vertical _ 3 = _ at htext
        rw [hsheet] at htext
        obtain rfl := Except.ok.inj htext
        exact congrArg (fun text => Except.ok (Answer.message text)) String.append_empty
      · change Printer.standard.print .vertical _ 3 = _ at hreason
        rw [hsheet] at hreason
        cases hreason
    · have hcounters : s.last = some ⟨1, 0, 0, 1, false⟩ := by
        refine (hlast _).mpr ⟨[], _, [unread], rfl, ⟨_, _, _, hasks, finds_point⟩, ?_⟩
        rintro l hl
        obtain rfl := List.mem_singleton.mp hl
        exact hnone
      have hstats := (hanswers ⟨" Stats", 0⟩).stats ⟨"Stats".toList, Text.trims_trim _, rfl⟩
      rw [hcounters] at hstats
      obtain ⟨text, htext, hanswer⟩ := hstats
      have htable : Table.render? ["Counter", "Value"] counters = some (Table.render _ counters) :=
        Table.render?_eq (by decide +kernel)
      change Table.render? ["Counter", "Value"] counters = some text at htext
      rw [htable] at htext
      obtain rfl := Option.some.inj htext
      exact hanswer

end Session

end GraphPatterns
