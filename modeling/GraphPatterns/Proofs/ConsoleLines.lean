/-
What a line of the console asks for, as its text tells. Blanks around a line do not matter, nor does the
case of the word of a command (`Line.Says`); any other line asks for a pattern, and a mark at its end is
not part of that (`Line.Asks`). A session reads its lines so (`Line.asks_iff`).
-/
import GraphPatterns.Console.Session
import Mathlib.Data.List.TakeWhile

namespace GraphPatterns

/-! ## Blanks around a text -/

namespace Text

variable {text core : List Char}

/-- A text is another one with blanks around it, which has none at its own ends. -/
structure Trims (text core : List Char) : Prop where
  around : ∃ before after, text = before ++ core ++ after ∧
    (∀ c ∈ before, isBlank c = true) ∧ ∀ c ∈ after, isBlank c = true
  first : ∀ c ∈ core.head?, isBlank c = false
  last : ∀ c ∈ core.getLast?, isBlank c = false

theorem dropWhile_isBlank (h : ∀ c ∈ core.head?, isBlank c = false) : core.dropWhile isBlank = core := by
  cases core with
  | nil => rfl
  | cons c core => rw [List.dropWhile_cons, if_neg (by simp [h c rfl])]

theorem trimEnd_append {after : List Char} (h : ∀ c ∈ after, isBlank c = true) (s : List Char) :
    trimEnd (s ++ after) = trimEnd s := by
  rw [trimEnd, List.reverse_append,
    List.dropWhile_append_of_pos fun c hc => h c (List.mem_reverse.mp hc), trimEnd]

theorem trimEnd_eq (h : ∀ c ∈ core.getLast?, isBlank c = false) : trimEnd core = core := by
  rw [trimEnd, dropWhile_isBlank (by rwa [List.head?_reverse]), List.reverse_reverse]

/-- **Trimming takes the blanks at both ends.** -/
theorem Trims.trim_eq (h : Trims text core) : trim text = core := by
  obtain ⟨before, after, rfl, hbefore, hafter⟩ := h.around
  rw [trim, List.append_assoc, List.dropWhile_append_of_pos hbefore]
  cases core with
  | nil =>
    have hnone : ([] ++ after).dropWhile isBlank = [] := List.dropWhile_eq_nil_iff.mpr hafter
    rw [hnone]
    rfl
  | cons c core =>
    rw [dropWhile_isBlank (by simpa using h.first), trimEnd_append hafter, trimEnd_eq h.last]

theorem trims_trim (text : List Char) : Trims text (trim text) := by
  have hfront := List.takeWhile_append_dropWhile (p := isBlank) (l := text)
  generalize hrest : text.dropWhile isBlank = rest at hfront
  have hback := List.takeWhile_append_dropWhile (p := isBlank) (l := rest.reverse)
  have hsplit : rest = trimEnd rest ++ (rest.reverse.takeWhile isBlank).reverse := by
    rw [trimEnd, ← List.reverse_append, hback, List.reverse_reverse]
  have htrim : trim text = trimEnd rest := by rw [trim, hrest]
  refine ⟨⟨text.takeWhile isBlank, (rest.reverse.takeWhile isBlank).reverse, ?_, ?_, ?_⟩, ?_, ?_⟩
  · rw [htrim, List.append_assoc, ← hsplit, hfront]
  · exact fun c hc => List.mem_takeWhile_imp hc
  · exact fun c hc => List.mem_takeWhile_imp (List.mem_reverse.mp hc)
  · intro c hc
    have hhead : rest.head? = some c := by
      rw [hsplit, List.head?_append, ← htrim, hc]
      rfl
    have hnot := List.head?_dropWhile_not isBlank text
    rw [hrest, hhead] at hnot
    exact hnot
  · intro c hc
    have hnot := List.head?_dropWhile_not isBlank rest.reverse
    rw [htrim, trimEnd, List.getLast?_reverse] at hc
    rw [hc] at hnot
    exact hnot

end Text

open Text

/-- A line that is given to a session, with the time that its search takes. -/
structure Line where
  text : String
  milliseconds : Nat

namespace Line

variable {l : Line} {core : List Char} {word query : String} {marked : Bool}

/-- A line says a word if it is the word but for the blanks around it and the case of its letters. -/
def Says (l : Line) (word : String) : Prop :=
  ∃ core, Trims l.text.toList core ∧ core.map Char.toLower = word.toList

def commandWords : List String := ["help", "h", "?", "quit", "exit", "q", "stats"]

/-- A line that says something, and not the word of a command, asks for a pattern. If it ends with a mark,
the pattern is what stands before the mark. -/
inductive Asks (l : Line) : String → Bool → Prop where
  | plain {core : List Char} (hcore : Trims l.text.toList core) (hsome : core ≠ [])
    (hword : ∀ word ∈ commandWords, ¬l.Says word)
    (hmark : ∀ mark ∈ ['G', 'g'], ∀ body, core ≠ body ++ ['\\', mark]) :
    l.Asks (String.ofList core) false
  | marked {body query : List Char} {mark : Char} (hmark : mark ∈ ['G', 'g'])
    (hcore : Trims l.text.toList (body ++ ['\\', mark])) (hquery : Trims body query) :
    l.Asks (String.ofList query) true

/-- The text of the pattern that a line is read as, and whether it is marked for vertical output. -/
def pattern? (l : Line) : Option (String × Bool) :=
  match Request.ofLine l.text with
  | .pattern text => some (Report.verticalMark text)
  | _ => none

/-! ## Words -/

theorem says_iff (h : Trims l.text.toList core) : l.Says word ↔ Request.commandWord core = word := by
  rw [Request.commandWord]
  constructor
  · rintro ⟨other, hother, hword⟩
    obtain rfl : other = core := hother.trim_eq.symm.trans h.trim_eq
    rw [hword, String.ofList_toList]
  · rintro rfl
    exact ⟨core, h, String.toList_ofList.symm⟩

theorem ofLine_eq (h : Trims l.text.toList core) : Request.ofLine l.text =
    if core = [] then .nothing
    else if Request.commandWord core ∈ ["help", "h", "?"] then .help
    else if Request.commandWord core ∈ ["quit", "exit", "q"] then .exit
    else if Request.commandWord core = "stats" then .stats
    else .pattern (String.ofList core) := by
  simp only [Request.ofLine, h.trim_eq, List.isEmpty_iff]

theorem ofLine_of_nothing (h : Trims l.text.toList []) : Request.ofLine l.text = .nothing := ofLine_eq h

theorem ofLine_of_says (h : l.Says word) (hword : word ∈ commandWords) : Request.ofLine l.text =
    if word ∈ ["help", "h", "?"] then .help
    else if word ∈ ["quit", "exit", "q"] then .exit
    else .stats := by
  obtain ⟨core, hcore, hsays⟩ := h
  have hread := (says_iff hcore).mp ⟨core, hcore, hsays⟩
  have hsome : core ≠ [] := by
    rintro rfl
    rw [← hread] at hword
    exact absurd hword (by decide)
  rw [ofLine_eq hcore, if_neg hsome, hread]
  simp only [commandWords, List.mem_cons, List.not_mem_nil, or_false] at hword
  rcases hword with rfl | rfl | rfl | rfl | rfl | rfl | rfl <;> rfl

theorem ofLine_of_help (h : l.Says word) (hword : word ∈ ["help", "h", "?"]) :
    Request.ofLine l.text = .help := by
  simp only [List.mem_cons, List.not_mem_nil, or_false] at hword
  rcases hword with rfl | rfl | rfl <;> exact ofLine_of_says h (by decide)

theorem ofLine_of_exit (h : l.Says word) (hword : word ∈ ["quit", "exit", "q"]) :
    Request.ofLine l.text = .exit := by
  simp only [List.mem_cons, List.not_mem_nil, or_false] at hword
  rcases hword with rfl | rfl | rfl <;> exact ofLine_of_says h (by decide)

theorem ofLine_of_stats (h : l.Says "stats") : Request.ofLine l.text = .stats :=
  ofLine_of_says h (by decide)

/-- A line is read as a pattern if it says something else than the word of a command. -/
theorem ofLine_eq_pattern_iff (h : Trims l.text.toList core) {text : String} :
    Request.ofLine l.text = .pattern text ↔
      text = String.ofList core ∧ core ≠ [] ∧ ∀ word ∈ commandWords, ¬l.Says word := by
  have hword : (∀ word ∈ commandWords, ¬l.Says word) ↔
      Request.commandWord core ∉ ["help", "h", "?"] ∧ Request.commandWord core ∉ ["quit", "exit", "q"] ∧
        Request.commandWord core ≠ "stats" := by
    simp only [commandWords, says_iff h]
    grind
  rw [ofLine_eq h, hword]
  grind

/-! ## Marks -/

theorem verticalMark_of_mark {text body : List Char} {mark : Char} (hmark : mark ∈ ['G', 'g'])
    (h : Trims text (body ++ ['\\', mark])) :
    Report.verticalMark (String.ofList text) = (String.ofList (trim body), true) := by
  have hreverse : (body ++ ['\\', mark]).reverse = mark :: '\\' :: body.reverse := by simp
  rw [Report.verticalMark, String.toList_ofList, h.trim_eq, hreverse]
  simp only [List.reverse_reverse]
  rw [if_pos (by simpa using hmark)]

theorem verticalMark_of_no_mark {text : List Char} (h : Trims text core)
    (hmark : ∀ mark ∈ ['G', 'g'], ∀ body, core ≠ body ++ ['\\', mark]) :
    Report.verticalMark (String.ofList text) = (String.ofList core, false) := by
  rw [Report.verticalMark, String.toList_ofList, h.trim_eq]
  split
  · next c rest hreverse =>
    have hcore : core = rest.reverse ++ ['\\', c] := by
      rw [← List.reverse_reverse core, hreverse]
      simp
    rw [if_neg fun hc => hmark c (by simpa using hc) rest.reverse hcore]
  · rfl

theorem trims_core {text : List Char} (h : Trims text core) : Trims core core :=
  ⟨⟨[], [], by simp, nofun, nofun⟩, h.first, h.last⟩

theorem not_says_of_mark {body : List Char} {mark : Char}
    (h : Trims l.text.toList (body ++ ['\\', mark])) : ∀ word ∈ commandWords, ¬l.Says word := by
  intro word hword hsays
  have hback : '\\' ∈ word.toList := by
    rw [← (says_iff h).mp hsays, Request.commandWord, String.toList_ofList]
    exact List.mem_map.mpr ⟨'\\', by simp, rfl⟩
  simp only [commandWords, List.mem_cons, List.not_mem_nil, or_false] at hword
  rcases hword with rfl | rfl | rfl | rfl | rfl | rfl | rfl <;> exact absurd hback (by decide)

theorem Asks.pattern?_eq (h : l.Asks query marked) : l.pattern? = some (query, marked) := by
  cases h with
  | plain hcore hsome hword hmark =>
    rw [pattern?, (ofLine_eq_pattern_iff hcore).mpr ⟨rfl, hsome, hword⟩]
    exact congrArg some (verticalMark_of_no_mark (trims_core hcore) hmark)
  | marked hmark hcore hquery =>
    rw [pattern?, (ofLine_eq_pattern_iff hcore).mpr ⟨rfl, by simp, not_says_of_mark hcore⟩,
      ← hquery.trim_eq]
    exact congrArg some (verticalMark_of_mark hmark (trims_core hcore))

theorem asks_of_pattern? (h : l.pattern? = some (query, marked)) : l.Asks query marked := by
  unfold pattern? at h
  split at h
  · next text hread =>
    have hcore := trims_trim l.text.toList
    obtain ⟨rfl, hsome, hword⟩ := (ofLine_eq_pattern_iff hcore).mp hread
    by_cases hmark : ∀ mark ∈ ['G', 'g'], ∀ body, trim l.text.toList ≠ body ++ ['\\', mark]
    · rw [verticalMark_of_no_mark (trims_core hcore) hmark] at h
      cases h
      exact .plain hcore hsome hword hmark
    · simp only [not_forall, not_not] at hmark
      obtain ⟨mark, hmark, body, hbody⟩ := hmark
      rw [hbody] at hcore h
      rw [verticalMark_of_mark hmark (trims_core hcore)] at h
      cases h
      exact .marked hmark hcore (trims_trim body)
  · cases h

/-- **A line is read as its text tells.** -/
theorem asks_iff : l.Asks query marked ↔ l.pattern? = some (query, marked) :=
  ⟨Asks.pattern?_eq, asks_of_pattern?⟩

end Line

end GraphPatterns
