/-
What stands before a path is read back: a variable with an equals sign, a selector and a mode. Each may
be missing, and the path that follows starts with a character of an element then.
-/
import GraphPatterns.Pattern.Parser.Path
import GraphPatterns.Proofs.ReadElements

namespace GraphPatterns

open GraphPatterns.Parser

/-- A selector with a number of 64 bits. -/
def Selector.WellFormed : Selector → Prop
  | .anyK k => k ≤ Number.maxWord
  | .shortestK k => k ≤ Number.maxWord
  | .shortestGroups k => k ≤ Number.maxWord
  | _ => True

namespace Parser

variable {s rest : List Char}

/-! ## Where a path starts -/

/-- A text that starts with a factor. -/
def Opens (t : List Char) : Prop := ∃ c r, t = c :: r ∧ c ∈ ['(', '<', '-', '~']

theorem Opens.starts {t : List Char} (h : Opens t) : Starts t := by
  obtain ⟨c, r, rfl, hc⟩ := h
  simp only [List.mem_cons, List.not_mem_nil, or_false] at hc
  rcases hc with rfl | rfl | rfl | rfl <;> exact ⟨_, r, rfl, rfl, by decide⟩

theorem Opens.append {t : List Char} (h : Opens t) (r : List Char) : Opens (t ++ r) := by
  obtain ⟨c, r', rfl, hc⟩ := h
  exact ⟨c, r' ++ r, rfl, hc⟩

/-! ## What stands before a path -/

theorem isName_mode (m : PathMode) : IsName m.render := by
  cases m <;> exact ⟨_, _, rfl, rfl, List.all_eq_true.mp rfl⟩

theorem keyword?_opens {k : String} {t : List Char} (ht : Opens t) (hs : skip s = t) (hk : k.toList ≠ []) :
    keyword? k s = none := by
  obtain ⟨c, r, rfl, hc⟩ := ht
  simp only [List.mem_cons, List.not_mem_nil, or_false] at hc
  rcases hc with rfl | rfl | rfl | rfl <;> exact keyword?_of_symbol hs rfl hk

/-- A word that no equals sign follows is not a variable that is declared. -/
theorem declaration?_word {w : String} (hw : IsName w) (hs : skip s = w.toList ++ rest)
    (hrest : NameEnds rest) (heq : isAt '=' rest = false) : declaration? s = none := by
  rw [declaration?, identifier_of_skip hw hs hrest]
  dsimp only
  rw [char?_eq_none_iff.mpr heq, Option.map_none, ite_self]

theorem declaration?_symbol {c : Char} {r : List Char} (hs : skip s = c :: r)
    (hc : isNameStart c = false) : declaration? s = none := by
  rw [declaration?, isAtName_of_skip hs, hc]
  rfl

theorem declaration?_opens {t : List Char} (ht : Opens t) (hs : skip s = t) : declaration? s = none := by
  obtain ⟨c, r, rfl, hc⟩ := ht
  simp only [List.mem_cons, List.not_mem_nil, or_false] at hc
  rcases hc with rfl | rfl | rfl | rfl <;> exact declaration?_symbol hs rfl

theorem declaration?_mode (m : Option PathMode) {t : List Char} (ht : Opens t) :
    declaration? ((renderOption (·.render ++ " ") m).toList ++ t) = none := by
  cases m with
  | none => exact declaration?_opens ht ht.starts.skip_eq
  | some m =>
    have htext : (renderOption (·.render ++ " ") (some m)).toList ++ t = m.render.toList ++ ' ' :: t := by
      rw [renderOption, String.toList_append, List.append_assoc]
      rfl
    have hequals : isAt '=' (' ' :: t) = false := ht.starts.isAt_space List.mem_cons_self
    rw [htext]
    exact declaration?_word (isName_mode m) ((isName_mode m).starts.skip_append _) (nameEnds_cons rfl t)
      hequals

theorem declaration?_congr {s' : List Char} (h : skip s = skip s') : declaration? s = declaration? s' := by
  rw [declaration?, declaration?, isAtName, isAtName, identifier, identifier, h]

theorem declaration_of_skip {name : Option String} (hname : ∀ n ∈ name, IsName n) {t : List Char}
    (ht : declaration? t = none) (hs : skip s = skip ((renderOption (· ++ " = ") name).toList ++ t)) :
    ∃ s', declaration s = (name, s') ∧ skip s' = skip t := by
  cases name with
  | none =>
    have hnone : declaration? s = none := (declaration?_congr hs).trans ht
    refine ⟨s, ?_, hs⟩
    rw [declaration, hnone]
  | some n =>
    have hn := hname n rfl
    have htext : skip s = n.toList ++ ' ' :: '=' :: ' ' :: t := by
      rw [hs, renderOption, String.toList_append, List.append_assoc]
      exact hn.starts.skip_append _
    obtain ⟨c, cs, hcs, hc, -⟩ := id hn
    have hequals : char? '=' (' ' :: '=' :: ' ' :: t) = some (' ' :: t) := rfl
    have hat : isAtName s = true := by
      rw [isAtName_of_skip (htext.trans (by rw [hcs, List.cons_append])), hc]
    refine ⟨' ' :: t, ?_, rfl⟩
    rw [declaration, declaration?, hat, if_pos rfl, identifier_of_skip hn htext (nameEnds_cons rfl _)]
    dsimp only
    rw [hequals]
    rfl

theorem skipPathWord_opens {t : List Char} (ht : Opens t) (hs : skip s = t) : skipPathWord s = s := by
  rw [skipPathWord, keyword?_opens ht hs (by decide), keyword?_opens ht hs (by decide)]
  rfl

theorem mode_none (h : ∀ m : PathMode, keyword? m.render s = none) : mode s = (none, s) := by
  have hwalk : keyword? "WALK" s = none := h .walk
  have htrail : keyword? "TRAIL" s = none := h .trail
  have hsimple : keyword? "SIMPLE" s = none := h .simple
  have hacyclic : keyword? "ACYCLIC" s = none := h .acyclic
  simp only [mode, keywordChoice?, hwalk, htrail, hsimple, hacyclic]

theorem mode_opens {t : List Char} (ht : Opens t) (hs : skip s = t) : mode s = (none, s) :=
  mode_none fun m => keyword?_opens ht hs (by cases m <;> decide)

theorem keywordChoice?_congr {α : Type} (l : List (String × α)) {s' : List Char}
    (h : skip s = skip s') : keywordChoice? l s = keywordChoice? l s' := by
  induction l with
  | nil => rfl
  | cons p l ih => rw [keywordChoice?, keywordChoice?, ih, keyword?_congr h]

theorem mode_of_skip {m : Option PathMode} {t : List Char} (ht : Opens t)
    (hs : skip s = (renderOption (·.render ++ " ") m).toList ++ t) :
    ∃ s', mode s = (m, s') ∧ skip s' = t := by
  cases m with
  | none => exact ⟨s, mode_opens ht hs, hs⟩
  | some m =>
    have htext : skip s = m.render.toList ++ ' ' :: t := by
      rw [hs, renderOption, String.toList_append, List.append_assoc]
      rfl
    have hskip : skip (' ' :: t) = t := ht.starts.skip_eq
    refine ⟨' ' :: t, ?_, hskip⟩
    have hsame : skip s = skip (m.render.toList ++ ' ' :: t) := by
      rw [htext, (isName_mode m).starts.skip_append]
    rw [mode, keywordChoice?_congr _ hsame]
    cases m <;> exact congrArg (Prod.mk _) (skipPathWord_opens ht hskip)

/-! ## Selectors -/

/-- A text that goes on with neither a selector nor a word or a number that belongs to one. -/
structure NoSelector (t : List Char) : Prop where
  starts : Starts t
  keyword : ∀ k ∈ ["ALL", "ANY", "SHORTEST", "PATH", "PATHS", "GROUP", "GROUPS"], keyword? k t = none
  digit : isAtDigit t = false

theorem noSelector_mode (m : Option PathMode) {t : List Char} (ht : Opens t) :
    NoSelector ((renderOption (·.render ++ " ") m).toList ++ t) := by
  cases m with
  | none =>
    change NoSelector t
    have hskip := ht.starts.skip_eq
    refine ⟨ht.starts, fun k hk => keyword?_opens ht hskip ?_, ?_⟩
    · revert k
      decide
    · obtain ⟨c, r, rfl, hc⟩ := ht
      rw [isAtDigit_of_skip hskip]
      simp only [List.mem_cons, List.not_mem_nil, or_false] at hc
      rcases hc with rfl | rfl | rfl | rfl <;> rfl
  | some m =>
    have htext : (renderOption (·.render ++ " ") (some m)).toList ++ t = m.render.toList ++ ' ' :: t := by
      rw [renderOption, String.toList_append, List.append_assoc]
      rfl
    rw [htext]
    refine ⟨(isName_mode m).starts.append _, ?_, ?_⟩
    · simp only [List.forall_mem_cons]
      cases m <;> exact ⟨rfl, rfl, rfl, rfl, rfl, rfl, rfl, List.forall_mem_nil _⟩
    · cases m <;> rfl

namespace NoSelector

variable {t : List Char}

theorem keyword_space (ht : NoSelector t) :
    ∀ k ∈ ["ALL", "ANY", "SHORTEST", "PATH", "PATHS", "GROUP", "GROUPS"], keyword? k (' ' :: t) = none :=
  fun k hk => (keyword?_congr (skip_space t)).trans (ht.keyword k hk)

theorem skipPathWord_space (ht : NoSelector t) : skipPathWord (' ' :: t) = ' ' :: t := by
  rw [skipPathWord, ht.keyword_space "PATHS" (by decide), ht.keyword_space "PATH" (by decide)]
  rfl

end NoSelector

theorem selector_none {t : List Char} (ht : NoSelector t) (hs : skip s = t) :
    selector s = .ok (none, s) := by
  have hkeyword (k) (hk : k ∈ ["ALL", "ANY", "SHORTEST", "PATH", "PATHS", "GROUP", "GROUPS"]) :
      keyword? k s = none := (keyword?_congr (hs.trans ht.starts.skip_eq.symm)).trans (ht.keyword k hk)
  rw [selector, hkeyword "ALL" (by decide), hkeyword "ANY" (by decide), hkeyword "SHORTEST" (by decide)]

theorem keyword?_digits {k : String} (n : Nat) (hk : k.toList.head?.any (fun d => d.toLower.isDigit) = false)
    (hrest : NameEnds rest) : keyword? k (' ' :: (Nat.toDigits 10 n ++ rest)) = none := by
  have hskip : skip (' ' :: (Nat.toDigits 10 n ++ rest)) = Nat.toDigits 10 n ++ rest :=
    (starts_toDigits n).skip_append rest
  obtain ⟨c, r, hdigits, hc⟩ := exists_toDigits n
  rw [keyword?_of_skip hskip (fun c hc => isNamePart_of_isDigit (isDigit_of_mem_toDigits c hc)) hrest,
    hdigits, sameLetters_of_isDigit hc hk]
  rfl

theorem isName_of_mem_words {w : String} (hw : w ∈ ["ALL", "ANY", "SHORTEST"]) : IsName w := by
  simp only [List.mem_cons, List.not_mem_nil, or_false] at hw
  rcases hw with rfl | rfl | rfl <;> exact ⟨_, _, rfl, rfl, List.all_eq_true.mp rfl⟩

/-- Of the words that start a selector, the one that comes next is read. -/
theorem keyword?_selector {w : String} (hw : w ∈ ["ALL", "ANY", "SHORTEST"]) {t : List Char}
    (hs : skip s = w.toList ++ ' ' :: t) :
    ∀ k ∈ ["ALL", "ANY", "SHORTEST"], keyword? k s = if w = k then some (' ' :: t) else none := by
  intro k hk
  have hsame : sameLetters w.toList k.toList = decide (w = k) := by
    clear hs
    revert w k
    decide
  rw [keyword?_of_skip hs (isName_of_mem_words hw).isNamePart (nameEnds_cons rfl t), hsame]
  simp only [decide_eq_true_eq]

theorem selector_of_skip {chosen : Option Selector} (hw : ∀ r ∈ chosen, r.WellFormed) {t : List Char}
    (ht : NoSelector t) (hs : skip s = (renderOption (·.render ++ " ") chosen).toList ++ t) :
    ∃ s', selector s = .ok (chosen, s') ∧ skip s' = t := by
  cases chosen with
  | none => exact ⟨s, selector_none ht hs, hs⟩
  | some r =>
  refine ⟨' ' :: t, ?_, ht.starts.skip_eq⟩
  have hw := hw r rfl
  have hpath := ht.skipPathWord_space
  have hdigit : isAtDigit (' ' :: t) = false := ht.digit
  have hinteger {k : Nat} (hk : k ≤ Number.maxWord) (rest : List Char) :
      integer (' ' :: (Nat.toDigits 10 k ++ ' ' :: rest)) = .ok (k, ' ' :: rest) :=
    integer_of_skip ((starts_toDigits k).skip_append _) hk (nameEnds_cons rfl rest)
  have hatDigit (k : Nat) (rest : List Char) :
      isAtDigit (' ' :: (Nat.toDigits 10 k ++ ' ' :: rest)) = true := isAtDigit_append k (' ' :: rest)
  -- What the three tests for a first word say, once it is known which word it is.
  have hfirst {w : String} (hmem : w ∈ ["ALL", "ANY", "SHORTEST"]) {u : List Char}
      (htext : (r.render ++ " ").toList ++ t = w.toList ++ ' ' :: u) :=
    keyword?_selector hmem (hs.trans htext)
  have hshortest : keyword? "SHORTEST" (' ' :: ("SHORTEST".toList ++ ' ' :: t)) = some (' ' :: t) := rfl
  have hplain : keyword? "SHORTEST" (' ' :: t) = none := ht.keyword_space _ (by decide)
  cases r with
  | all =>
    have hwords := hfirst (w := "ALL") (by decide) (u := t) rfl
    simp only [selector, hwords "ALL" (by decide), if_true, hplain, hpath]
  | any =>
    have hwords := hfirst (w := "ANY") (by decide) (u := t) rfl
    simp [selector, hwords, hplain, hdigit, hpath]
  | anyK k =>
    have hwords := hfirst (w := "ANY") (by decide) (u := Nat.toDigits 10 k ++ ' ' :: t)
      (by simp [Selector.render, String.toList_append])
    have hnumber : keyword? "SHORTEST" (' ' :: (Nat.toDigits 10 k ++ ' ' :: t)) = none :=
      keyword?_digits k rfl (nameEnds_cons rfl t)
    simp [selector, hwords, hnumber, hatDigit, hinteger hw, ok_map, hpath]
  | allShortest =>
    have hwords := hfirst (w := "ALL") (by decide) (u := "SHORTEST".toList ++ ' ' :: t) rfl
    simp only [selector, hwords "ALL" (by decide), if_true, hshortest, hpath]
  | anyShortest =>
    have hwords := hfirst (w := "ANY") (by decide) (u := "SHORTEST".toList ++ ' ' :: t) rfl
    simp only [selector, hwords "ALL" (by decide), hwords "ANY" (by decide), if_true, hshortest, hpath]
    rfl
  | shortestK k =>
    have hwords := hfirst (w := "SHORTEST") (by decide) (u := Nat.toDigits 10 k ++ ' ' :: t)
      (by simp [Selector.render, String.toList_append])
    simp [selector, hwords, hatDigit, hinteger hw, ok_map, hpath, ht.keyword_space]
  | shortestGroups k =>
    obtain ⟨rest, hrest⟩ : ∃ rest, rest = "GROUPS".toList ++ ' ' :: t := ⟨_, rfl⟩
    have hwords := hfirst (w := "SHORTEST") (by decide) (u := Nat.toDigits 10 k ++ ' ' :: rest)
      (by simp [hrest, Selector.render, String.toList_append])
    have hgroups : keyword? "GROUPS" (' ' :: rest) = some (' ' :: t) := by
      rw [hrest]
      rfl
    simp [selector, hwords, hatDigit, hinteger hw, ok_map, hgroups, hpath]

theorem noSelector_opens {t : List Char} (ht : Opens t) : NoSelector t := noSelector_mode none ht

/-- A selector starts with a word that a space follows. -/
theorem exists_selector_word (r : Selector) {t : List Char} (ht : Starts t) :
    ∃ w ∈ ["ALL", "ANY", "SHORTEST"], ∃ t',
      Starts t' ∧ (r.render ++ " ").toList ++ t = w.toList ++ ' ' :: t' := by
  have hword : Starts ("SHORTEST".toList ++ ' ' :: t) := ⟨'S', _, rfl, rfl, by decide⟩
  cases r with
  | all => exact ⟨"ALL", by decide, t, ht, rfl⟩
  | any => exact ⟨"ANY", by decide, t, ht, rfl⟩
  | anyK k =>
    refine ⟨"ANY", by decide, _, (starts_toDigits k).append (' ' :: t), ?_⟩
    simp [Selector.render, String.toList_append]
  | allShortest => exact ⟨"ALL", by decide, _, hword, rfl⟩
  | anyShortest => exact ⟨"ANY", by decide, _, hword, rfl⟩
  | shortestK k =>
    refine ⟨"SHORTEST", by decide, _, (starts_toDigits k).append (' ' :: t), ?_⟩
    simp [Selector.render, String.toList_append]
  | shortestGroups k =>
    refine ⟨"SHORTEST", by decide, _, (starts_toDigits k).append (" GROUPS ".toList ++ t), ?_⟩
    simp [Selector.render, String.toList_append]

theorem starts_selector (chosen : Option Selector) {t : List Char} (ht : Starts t) :
    Starts ((renderOption (·.render ++ " ") chosen).toList ++ t) := by
  cases chosen with
  | none => exact ht
  | some r =>
    obtain ⟨w, hw, t', -, htext⟩ := exists_selector_word r ht
    rw [renderOption, htext]
    exact (isName_of_mem_words hw).starts.append _

theorem selectorAndMode_of_skip {chosen : Option Selector} {m : Option PathMode}
    (hw : ∀ r ∈ chosen, r.WellFormed) {t : List Char} (ht : Opens t)
    (hs : skip s = (renderOption (·.render ++ " ") chosen).toList ++
      ((renderOption (·.render ++ " ") m).toList ++ t)) :
    ∃ s', selectorAndMode s = .ok ((chosen, m), s') ∧ skip s' = t := by
  obtain ⟨s₁, hselector, hs₁⟩ := selector_of_skip hw (noSelector_mode m ht) hs
  obtain ⟨s₂, hmode, hs₂⟩ := mode_of_skip ht hs₁
  refine ⟨s₂, ?_, hs₂⟩
  rw [selectorAndMode, hselector, ok_bind]
  cases chosen with
  | some r =>
    dsimp only
    rw [hmode]
    rfl
  | none =>
    dsimp only
    rw [hmode]
    cases m with
    | some m =>
      dsimp only
      rw [selector_none (noSelector_opens ht) hs₂, ok_bind]
      rfl
    | none => rfl

end Parser

end GraphPatterns
