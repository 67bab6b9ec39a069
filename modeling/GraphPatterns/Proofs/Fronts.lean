/-
The front of a text, character by character: what is skipped as blanks and comments, where a comment ends,
and which characters a token takes.
-/
import GraphPatterns.Proofs.Tokens
import Mathlib.Data.List.Basic

namespace GraphPatterns.Parser

variable {c : Char} {s t r : List Char} {k : String}

/-! ## Blanks and comments -/

/-- Two characters that start a comment. -/
def OpensComment (c : Char) (s : List Char) : Prop := c = '/' ∧ (s.head? = some '/' ∨ s.head? = some '*')

theorem ne_slash_of_isBlank (h : Text.isBlank c = true) : c ≠ '/' := by
  rintro rfl
  cases h

theorem skipFrom_blanks_cons (h : ¬ OpensComment c s) :
    skipFrom .blanks (c :: s) = if Text.isBlank c then skipFrom .blanks s else c :: s := by
  rw [skipFrom.eq_def]
  split
  · next heq =>
    obtain ⟨rfl, rfl⟩ := List.cons.inj heq
    exact absurd ⟨rfl, .inl rfl⟩ h
  · next heq =>
    obtain ⟨rfl, rfl⟩ := List.cons.inj heq
    exact absurd ⟨rfl, .inr rfl⟩ h
  · next heq =>
    obtain ⟨rfl, rfl⟩ := List.cons.inj heq
    rfl
  all_goals contradiction

theorem skip_blank (h : Text.isBlank c = true) (s : List Char) : skip (c :: s) = skip s :=
  (skipFrom_blanks_cons fun hopens => ne_slash_of_isBlank h hopens.1).trans (if_pos h)

theorem skip_solid (hblank : Text.isBlank c = false) (hopens : ¬ OpensComment c s) : skip (c :: s) = c :: s :=
  (skipFrom_blanks_cons hopens).trans (if_neg (by simp [hblank]))

theorem skipFrom_line_cons (h : c ≠ '\n') (s : List Char) : skipFrom .line (c :: s) = skipFrom .line s := by
  rw [skipFrom.eq_def]
  split <;> simp_all

theorem skipFrom_block_cons (h : ¬ (c = '*' ∧ s.head? = some '/')) :
    skipFrom .block (c :: s) = skipFrom .block s := by
  rw [skipFrom.eq_def]
  split <;> simp_all

/-- A comment to the end of the line ends at the first end of a line. -/
theorem skipFrom_line_append (ht : ∀ c ∈ t, c ≠ '\n') (s : List Char) :
    skipFrom .line (t ++ s) = skipFrom .line s := by
  induction t with
  | nil => rfl
  | cons c t ih =>
    rw [List.forall_mem_cons] at ht
    rw [List.cons_append, skipFrom_line_cons ht.1, ih ht.2]

/-- What is left after skipping starts with something that is not skipped. -/
theorem skip_skip (s : List Char) : skip (skip s) = skip s := by
  suffices h : ∀ gap, skip (skipFrom gap s) = skipFrom gap s from h .blanks
  intro gap
  fun_induction skipFrom gap s with
  | case4 c rest hline hblock hblank =>
    refine skip_solid (Bool.eq_false_iff.mpr hblank) ?_
    rintro ⟨rfl, h | h⟩
    · obtain ⟨r, rfl⟩ := List.head?_eq_some_iff.mp h
      exact hline r rfl rfl
    · obtain ⟨r, rfl⟩ := List.head?_eq_some_iff.mp h
      exact hblock r rfl rfl
  | case9 => rfl
  | _ => assumption

theorem length_skip_lt_of_append (h : skip s = t ++ r) (ht : t ≠ []) : (skip r).length < (skip s).length := by
  rw [h, List.length_append]
  have hpos := List.length_pos_iff.mpr ht
  have hle := length_skip_le r
  omega

/-! ## Tokens -/

theorem char?_eq_some_iff : char? c s = some r ↔ skip s = c :: r := by
  rw [char?]
  cases skip s with
  | nil => simp
  | cons d u =>
    dsimp only
    split
    · next heq => simp [heq]
    · next hne => simp [hne]

theorem text?_eq_some_iff {t : String} : text? t s = some r ↔ skip s = t.toList ++ r :=
  List.isPrefixOf?_eq_some_iff_append_eq.trans eq_comm

theorem text?_eq_char? {t : String} (ht : t.toList = [c]) (s : List Char) : text? t s = char? c s := by
  refine Option.ext fun r => ?_
  rw [text?_eq_some_iff, char?_eq_some_iff, ht, List.singleton_append]

theorem isSome_text? (t : String) (s : List Char) : (text? t s).isSome = t.toList.isPrefixOf (skip s) := by
  rw [Bool.eq_iff_iff, Option.isSome_iff_exists, List.isPrefixOf_iff_prefix]
  exact exists_congr fun r => text?_eq_some_iff.trans eq_comm

theorem isPrefixOf_eq_isAt {t : String} (ht : t.toList = [c]) (s : List Char) :
    t.toList.isPrefixOf (skip s) = isAt c s := by
  rw [ht, isAt]
  cases skip s with
  | nil => rfl
  | cons d u => simp [List.isPrefixOf, Bool.beq_comm]

theorem keyword?_eq (k : String) (s : List Char) :
    keyword? k s = if sameLetters ((skip s).takeWhile isNamePart) k.toList then
      some ((skip s).dropWhile isNamePart) else none := by
  rw [keyword?, List.span_eq_takeWhile_dropWhile]

/-- A keyword is a whole word that differs from what is asked for in the case of letters alone. -/
theorem of_keyword?_eq_some (h : keyword? k s = some r) :
    ∃ w, skip s = w ++ r ∧ (∀ c ∈ w, isNamePart c = true) ∧ sameLetters w k.toList = true := by
  rw [keyword?_eq] at h
  split at h
  · next hsame =>
    obtain rfl := Option.some.inj h
    exact ⟨_, List.takeWhile_append_dropWhile.symm, fun c hc => List.mem_takeWhile_imp hc, hsame⟩
  · cases h

/-- A name is read where one comes next, and nowhere else. -/
theorem identifier_eq (h : isAtName s = true) :
    identifier s = .ok (String.ofList ((skip s).takeWhile isNamePart), (skip s).dropWhile isNamePart) := by
  rw [isAtName] at h
  rw [identifier]
  cases hskip : skip s with
  | nil => simp [hskip] at h
  | cons d r =>
    simp only [hskip, List.head?_cons, Option.any_some] at h
    simp [h, isNamePart_of_isNameStart h]

theorem identifier_eq_fail (h : isAtName s = false) : identifier s = fail .expectedIdentifier (skip s) := by
  rw [isAtName] at h
  rw [identifier]
  cases hskip : skip s with
  | nil => rfl
  | cons d r =>
    simp only [hskip, List.head?_cons, Option.any_some] at h
    simp [h]

theorem numberText_minus (h : skip s = '-' :: r) :
    numberText s = ('-' :: r.takeWhile isNumberPart, r.dropWhile isNumberPart) := by
  rw [numberText, h]
  simp only [List.span_eq_takeWhile_dropWhile]

theorem numberText_digits (h : isAt '-' s = false) :
    numberText s = ((skip s).takeWhile isNumberPart, (skip s).dropWhile isNumberPart) := by
  rw [numberText, ← List.span_eq_takeWhile_dropWhile]
  split
  · next r hskip =>
    rw [isAt_of_skip hskip] at h
    cases h
  · rfl

theorem length_eq_of_sameLetters (h : sameLetters s t = true) : s.length = t.length := by
  rw [sameLetters, beq_iff_eq] at h
  simpa using congrArg List.length h

end GraphPatterns.Parser
