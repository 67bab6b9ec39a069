/-
The work of a console session on a line, step by step. The session is changed in place: a mark at the end
of a pattern sets another mode while the matches are printed, and the counters of a search are kept before
that. What has been changed when a step fails stays changed, so it matters that the mode is set after
everything that may fail and is set back before anything else. `Work.run_respond` says what comes of the
work, and `Work.run_respond_answer?` that it is what `Session.respond` makes of the line.
-/
import GraphPatterns.Console.Session
import GraphPatterns.Steps

namespace GraphPatterns

/-- Why the work on a line stops. -/
inductive Halt where
  | error (e : Error)
  /-- Something is not printed. After a crash no step is taken any more. -/
  | unprinted (u : Unprinted)

/-- Steps on a session, of which one may fail. -/
abbrev Work (α : Type) := ExceptT Halt (StateM Session) α

/-- The remark is the same for a table and for vertical output. -/
theorem Session.note_modeFor (s : Session) (vertical : Bool) (t : Tally) :
    s.note (s.modeFor vertical) t = s.note s.mode t := by
  unfold modeFor note
  split
  · next h =>
    obtain ⟨-, hmode⟩ := Bool.and_eq_true_iff.mp h
    rw [eq_of_beq hmode]
    rfl
  · rfl

namespace Work

def setMode (mode : PrintMode) : Work Unit := modify fun s => { s with mode := mode }

/-- Parses a pattern and finds all its matches. -/
def collect (text : String) : Work (List Match × Tally) := do
  let pattern ← MonadExcept.ofExcept
    ((GraphPattern.parse text).mapError fun e => Halt.error (.parse e))
  let s ← get
  MonadExcept.ofExcept
    ((pattern.matches ⟨s.graph.store, s.config, []⟩).mapError fun e => .error (.pattern e))

/-- Prints matches in the mode that is set. A failure is handed on as a value, for the mode to be set back
first; a crash is none. -/
def printMatches (p : Printer) (found : List Match) (milliseconds : Nat) :
    Work (Except String String) := do
  match p.print (← get).mode found milliseconds with
  | .ok text => return .ok text
  | .error (.unwritten reason) => return .error reason
  | .error .crash => throw (.unprinted .crash)

/-- Matches a pattern. A mark at its end asks for vertical output of this pattern. -/
def runPattern (p : Printer) (line : String) (milliseconds : Nat) : Work String := do
  let (text, vertical) := Report.verticalMark line
  let (found, tally) ← collect text
  modify fun s => { s with last := some tally }
  let mode := (← get).mode
  if vertical && mode == .table then setMode .vertical
  let printed ← printMatches p found milliseconds
  setMode mode
  let output ← MonadExcept.ofExcept (printed.mapError fun reason => .unprinted (.unwritten reason))
  let s ← get
  return output ++ s.note s.mode tally

/-- What is told of a pattern that cannot be matched or printed. A crash is not told. -/
def tell : Halt → Work Answer
  | .error e => return .failure (e.message?.getD "")
  | .unprinted (.unwritten reason) => return .failure (unwrittenMessage reason)
  | .unprinted .crash => throw (.unprinted .crash)

/-- Works on a line, with the time that its search takes. -/
def respond (p : Printer) (line : String) (milliseconds : Nat) : Work Answer := do
  match Request.ofLine line with
  | .nothing => return .skip
  | .help => return .message Session.help
  | .exit => return .exit
  | .stats =>
    match (← get).last with
    | some t =>
      match p.counters? t with
      | some text => return .message text
      | none => throw (.unprinted .crash)
    | none => return .failure "尚未执行任何匹配"
  | .pattern text => tryCatch (Answer.message <$> runPattern p text milliseconds) tell

/-! ## The session after the steps -/

section

variable (s : Session)

theorem mapError_ok {ε ε' α : Type} (f : ε → ε') (a : α) : (Except.ok a).mapError f = .ok a := rfl

theorem run_collect (text : String) : Steps.run (collect text) s = ((s.find text).mapError .error, s) := by
  rw [collect, Session.find, Steps.run_bind, Steps.run_ofExcept]
  cases GraphPattern.parse text with
  | error e => rfl
  | ok pattern =>
    simp only [mapError_ok]
    rw [Steps.run_bind, Steps.run_get]
    simp only
    rw [Steps.run_ofExcept]
    change _ = (Except.mapError Halt.error (Except.mapError Error.pattern _), s)
    cases pattern.matches ⟨s.graph.store, s.config, []⟩ <;> rfl

theorem run_printMatches (p : Printer) (found : List Match) (ms : Nat) :
    Steps.run (printMatches p found ms) s =
      match p.print s.mode found ms with
      | .ok text => (.ok (.ok text), s)
      | .error (.unwritten reason) => (.ok (.error reason), s)
      | .error .crash => (.error (.unprinted .crash), s) := by
  rw [printMatches, Steps.run_bind, Steps.run_get]
  simp only
  rcases p.print s.mode found ms with (_ | _) | _ <;> rfl

/-- The work on a pattern keeps the counters of its search. Another mode is left only by a crash. -/
theorem run_runPattern (p : Printer) (line : String) (ms : Nat) : Steps.run (runPattern p line ms) s =
    let (text, vertical) := Report.verticalMark line
    match s.find text with
    | .error e => (.error (.error e), s)
    | .ok (found, t) =>
      match p.print (s.modeFor vertical) found ms with
      | .ok output => (.ok (output ++ s.note s.mode t), { s with last := some t })
      | .error (.unwritten reason) => (.error (.unprinted (.unwritten reason)), { s with last := some t })
      | .error .crash => (.error (.unprinted .crash), { s with mode := s.modeFor vertical, last := some t }) := by
  rw [runPattern]
  simp only
  rw [Steps.run_bind, run_collect]
  cases s.find (Report.verticalMark line).1 with
  | error e => rfl
  | ok result =>
    obtain ⟨found, t⟩ := result
    simp only [mapError_ok, Steps.run_bind, Steps.run_modify, Steps.run_get, setMode, Session.modeFor]
    cases (Report.verticalMark line).2 && s.mode == .table with
    | false =>
      simp only [Bool.false_eq_true, if_false, Steps.run_bind, run_printMatches]
      rcases p.print s.mode found ms with (_ | _) | _ <;> rfl
    | true =>
      simp only [if_true, Steps.run_bind, Steps.run_modify, run_printMatches]
      rcases p.print .vertical found ms with (_ | _) | _ <;> rfl

/-- The answer to a line and the session after it, for each thing that a line may ask for. -/
theorem run_respond (p : Printer) (line : String) (ms : Nat) : Steps.run (respond p line ms) s =
    match Request.ofLine line with
    | .nothing => (.ok .skip, s)
    | .help => (.ok (.message Session.help), s)
    | .exit => (.ok .exit, s)
    | .stats =>
      match s.last with
      | some t =>
        match p.counters? t with
        | some text => (.ok (.message text), s)
        | none => (.error (.unprinted .crash), s)
      | none => (.ok (.failure "尚未执行任何匹配"), s)
    | .pattern line =>
      let (text, vertical) := Report.verticalMark line
      match s.find text with
      | .error e => (.ok (.failure (e.message?.getD "")), s)
      | .ok (found, t) =>
        match p.print (s.modeFor vertical) found ms with
        | .ok output => (.ok (.message (output ++ s.note s.mode t)), { s with last := some t })
        | .error (.unwritten reason) => (.ok (.failure (unwrittenMessage reason)), { s with last := some t })
        | .error .crash =>
          (.error (.unprinted .crash), { s with mode := s.modeFor vertical, last := some t }) := by
  rw [respond]
  cases Request.ofLine line with
  | nothing => rfl
  | help => rfl
  | exit => rfl
  | stats =>
    simp only [Steps.run_bind, Steps.run_get]
    cases s.last with
    | none => rfl
    | some t =>
      simp only
      cases p.counters? t <;> rfl
  | pattern line =>
    simp only [Steps.run_tryCatch, map_eq_pure_bind, Steps.run_bind, run_runPattern]
    cases s.find (Report.verticalMark line).1 with
    | error e => rfl
    | ok result =>
      obtain ⟨found, t⟩ := result
      simp only
      rcases p.print (s.modeFor (Report.verticalMark line).2) found ms with (_ | _) | _ <;> rfl

/-- **The work on a line comes to what the session responds**, if that has a text. -/
theorem run_respond_answer? (p : Printer) (line : String) (ms : Nat) :
    match (s.respond line).1.answer? p ms with
    | some answer => Steps.run (respond p line ms) s = (.ok answer, (s.respond line).2)
    | none => (Steps.run (respond p line ms) s).1 = .error (.unprinted .crash) := by
  rw [run_respond, Session.respond]
  cases Request.ofLine line with
  | nothing => rfl
  | help => rfl
  | exit => rfl
  | stats =>
    cases s.last with
    | none => rfl
    | some t =>
      simp only [Response.answer?]
      cases p.counters? t <;> rfl
  | pattern line =>
    simp only [Session.runPattern]
    cases s.find (Report.verticalMark line).1 with
    | error e => rfl
    | ok result =>
      obtain ⟨found, t⟩ := result
      simp only [Response.answer?, bind, Except.bind, pure, Except.pure, Session.note_modeFor]
      rcases p.print (s.modeFor (Report.verticalMark line).2) found ms with (_ | _) | _ <;> rfl

end

end Work

end GraphPatterns
