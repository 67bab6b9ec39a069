/-
Texts that differ in their layout alone: runs of blanks and closed comments outside strings give way to
others, which begin with a blank. After the blanks and comments at their front both texts start with the same
character, and a token takes the same characters of both (`Relaid.front`, `Relaid.takeWhile`).
-/
import GraphPatterns.Proofs.Fronts

namespace GraphPatterns.Parser

/-! ## Layout -/

/-- A comment with what closes it: the first end of a line, or the first closing mark. -/
inductive IsComment : List Char → Prop
  | line {body : List Char} : '\n' ∉ body → IsComment ('/' :: '/' :: (body ++ ['\n']))
  | block {body : List Char} : ¬ ['*', '/'] <:+: body ++ ['*'] → IsComment ('/' :: '*' :: (body ++ ['*', '/']))

/-- A run of blanks and closed comments. -/
inductive IsLayout : List Char → Prop
  | nil : IsLayout []
  | blank {c : Char} {g : List Char} : Text.isBlank c = true → IsLayout g → IsLayout (c :: g)
  | comment {w g : List Char} : IsComment w → IsLayout g → IsLayout (w ++ g)

def IsQuote (c : Char) : Prop := c = '"' ∨ c = '\''

instance (c : Char) : Decidable (IsQuote c) := inferInstanceAs (Decidable (c = '"' ∨ c = '\''))

/-- What may stand between two quotes. A backslash takes the next character with it. -/
inductive IsQuotable (quote : Char) : List Char → Prop
  | nil : IsQuotable quote []
  | char {c : Char} {w : List Char} : c ≠ quote → c ≠ '\\' → IsQuotable quote w → IsQuotable quote (c :: w)
  | escape {c : Char} {w : List Char} : IsQuotable quote w → IsQuotable quote ('\\' :: c :: w)

/-- Two texts that differ in their layout alone: some runs of blanks and closed comments give way to others that
begin with a blank. Strings and comments are passed as wholes, so that no run of layout is found in them; from a
string or a comment on that is not closed both texts are the same. -/
inductive Relaid : List Char → List Char → Prop
  | same (s : List Char) : Relaid s s
  | char {c : Char} {s t : List Char} : ¬ IsQuote c → ¬ OpensComment c s → Relaid s t → Relaid (c :: s) (c :: t)
  | string {quote : Char} {w s t : List Char} : IsQuote quote → IsQuotable quote w → Relaid s t →
      Relaid (quote :: (w ++ quote :: s)) (quote :: (w ++ quote :: t))
  | comment {w s t : List Char} : IsComment w → Relaid s t → Relaid (w ++ s) (w ++ t)
  | layout {g g' s t : List Char} : IsLayout g → g ≠ [] → IsLayout g' → g'.head?.any Text.isBlank = true →
      Relaid s t → Relaid (g ++ s) (g' ++ t)

variable {c quote : Char} {g r s t u w : List Char}

/-! ## Skipping layout -/

theorem IsComment.head (h : IsComment w) : w.head? = some '/' := by
  cases h <;> rfl

theorem skipFrom_block_append (hw : ¬ ['*', '/'] <:+: w ++ ['*']) (s : List Char) :
    skipFrom .block (w ++ '*' :: '/' :: s) = skip s := by
  induction w with
  | nil => rfl
  | cons c w ih =>
    have hopen : ¬ (c = '*' ∧ (w ++ '*' :: '/' :: s).head? = some '/') := by
      rintro ⟨rfl, hhead⟩
      cases w with
      | nil => cases hhead
      | cons d w =>
        obtain rfl := Option.some.inj hhead
        exact hw ⟨[], w ++ ['*'], rfl⟩
    rw [List.cons_append, skipFrom_block_cons hopen]
    exact ih fun hinside => hw (hinside.trans (List.infix_cons (List.infix_refl _)))

theorem IsComment.skip (h : IsComment w) (s : List Char) : skip (w ++ s) = Parser.skip s := by
  cases h with
  | @line body hbody =>
    rw [List.cons_append, List.cons_append, List.append_assoc]
    exact skipFrom_line_append (fun c hc => ne_of_mem_of_not_mem hc hbody) ('\n' :: s)
  | @block body hbody =>
    rw [List.cons_append, List.cons_append, List.append_assoc]
    exact skipFrom_block_append hbody s

theorem IsLayout.skip (h : IsLayout g) (s : List Char) : skip (g ++ s) = Parser.skip s := by
  induction h with
  | nil => rfl
  | blank hc _ ih => exact (skip_blank hc _).trans ih
  | comment hw _ ih => rw [List.append_assoc, hw.skip, ih]

theorem IsLayout.head (h : IsLayout g) (hne : g ≠ []) :
    ∃ c r, g = c :: r ∧ (Text.isBlank c = true ∨ c = '/') := by
  cases h with
  | nil => exact absurd rfl hne
  | blank hc _ => exact ⟨_, _, rfl, .inl hc⟩
  | comment hw _ =>
    obtain ⟨r, hr⟩ := List.head?_eq_some_iff.mp hw.head
    exact ⟨'/', r ++ _, by rw [hr]; rfl, .inr rfl⟩

/-! ## Characters that both texts have -/

/-- A character that stands at one place in both texts: it is no layout and starts none, and it starts no
string. -/
structure IsSolid (c : Char) : Prop where
  blank : Text.isBlank c = false
  slash : c ≠ '/'
  quote : ¬ IsQuote c

instance (c : Char) : Decidable (IsSolid c) :=
  decidable_of_iff (Text.isBlank c = false ∧ c ≠ '/' ∧ ¬ IsQuote c)
    ⟨fun h => ⟨h.1, h.2.1, h.2.2⟩, fun h => ⟨h.blank, h.slash, h.quote⟩⟩

theorem Relaid.eq_nil (h : Relaid [] t) : t = [] := by
  generalize hs : [] = s at h
  cases h with
  | same => rfl
  | char => cases hs
  | string => cases hs
  | comment hw =>
    have hhead := hw.head
    rw [(List.append_eq_nil_iff.mp hs.symm).1] at hhead
    cases hhead
  | layout _ hne => exact absurd (List.append_eq_nil_iff.mp hs.symm).1 hne

/-- What is neither a quote nor a slash may stand before both texts. -/
theorem Relaid.append_left (h : Relaid s t) (hw : ∀ c ∈ w, ¬ IsQuote c ∧ c ≠ '/') : Relaid (w ++ s) (w ++ t) := by
  induction w with
  | nil => exact h
  | cons c w ih =>
    rw [List.forall_mem_cons] at hw
    exact .char hw.1.1 (fun hopens => hw.1.2 hopens.1) (ih hw.2)

theorem Relaid.of_cons (h : Relaid (c :: s) t) (hc : IsSolid c) : ∃ u, t = c :: u ∧ Relaid s u := by
  generalize hs : c :: s = v at h
  cases h with
  | same => exact ⟨s, hs.symm, .same s⟩
  | char _ _ h =>
    obtain ⟨rfl, rfl⟩ := List.cons.inj hs
    exact ⟨_, rfl, h⟩
  | string hquote =>
    obtain ⟨rfl, -⟩ := List.cons.inj hs
    exact absurd hquote hc.quote
  | comment hw =>
    obtain ⟨r, hr⟩ := List.head?_eq_some_iff.mp hw.head
    rw [hr, List.cons_append] at hs
    exact absurd (List.cons.inj hs).1 hc.slash
  | layout hg hne =>
    obtain ⟨d, r, rfl, hd⟩ := hg.head hne
    obtain ⟨rfl, -⟩ := List.cons.inj hs
    rcases hd with hd | hd
    · rw [hc.blank] at hd
      cases hd
    · exact absurd hd hc.slash

theorem Relaid.head (h : Relaid s (c :: t)) (hc : Text.isBlank c = false) : s.head? = some c := by
  generalize ht : c :: t = v at h
  cases h with
  | same => rw [← ht]; rfl
  | char => exact congrArg some (List.cons.inj ht).1.symm
  | string => exact congrArg some (List.cons.inj ht).1.symm
  | comment hw =>
    obtain ⟨r, hr⟩ := List.head?_eq_some_iff.mp hw.head
    rw [hr, List.cons_append] at ht ⊢
    exact congrArg some (List.cons.inj ht).1.symm
  | @layout g g' _ _ _ _ _ hblank =>
    cases g' with
    | nil => cases hblank
    | cons d g' =>
      obtain ⟨rfl, -⟩ := List.cons.inj ht
      rw [List.head?_cons, Option.any_some, hc] at hblank
      cases hblank

theorem Relaid.of_cons_right (h : Relaid s (c :: t)) (hc : IsSolid c) : ∃ r, s = c :: r ∧ Relaid r t := by
  obtain ⟨r, rfl⟩ := List.head?_eq_some_iff.mp (h.head hc.blank)
  obtain ⟨u, hu, hru⟩ := h.of_cons hc
  obtain ⟨-, rfl⟩ := List.cons.inj hu
  exact ⟨r, rfl, hru⟩

theorem Relaid.takeWhile {p : Char → Bool} (hp : ∀ c, p c = true → IsSolid c) (h : Relaid s t) :
    s.takeWhile p = t.takeWhile p ∧ Relaid (s.dropWhile p) (t.dropWhile p) := by
  induction s generalizing t with
  | nil =>
    rw [h.eq_nil]
    exact ⟨rfl, .same []⟩
  | cons c s ih =>
    cases hc : p c with
    | true =>
      obtain ⟨u, rfl, hu⟩ := h.of_cons (hp c hc)
      obtain ⟨htake, hdrop⟩ := ih hu
      rw [List.takeWhile_cons_of_pos hc, List.takeWhile_cons_of_pos hc, List.dropWhile_cons_of_pos hc,
        List.dropWhile_cons_of_pos hc, htake]
      exact ⟨rfl, hdrop⟩
    | false =>
      have ht : t.takeWhile p = [] ∧ t.dropWhile p = t := by
        cases t with
        | nil => exact ⟨rfl, rfl⟩
        | cons d t =>
          have hd : p d = false := by
            refine Bool.eq_false_iff.mpr fun hd => ?_
            obtain ⟨r, hr, -⟩ := h.of_cons_right (hp d hd)
            obtain ⟨rfl, -⟩ := List.cons.inj hr
            rw [hc] at hd
            cases hd
          simp [hd]
      rw [ht.1, ht.2, List.takeWhile_cons_of_neg (by simp [hc]), List.dropWhile_cons_of_neg (by simp [hc])]
      exact ⟨rfl, h⟩

/-! ## The front of both texts -/

/-- Two texts after the blanks and comments at their front. -/
inductive SameFront : List Char → List Char → Prop
  | same (s : List Char) : SameFront s s
  | char {c : Char} {s t : List Char} : ¬ IsQuote c → ¬ OpensComment c s → Relaid s t →
      SameFront (c :: s) (c :: t)
  | string {quote : Char} {w s t : List Char} : IsQuote quote → IsQuotable quote w → Relaid s t →
      SameFront (quote :: (w ++ quote :: s)) (quote :: (w ++ quote :: t))

theorem SameFront.relaid (h : SameFront s t) : Relaid s t := by
  cases h with
  | same => exact .same _
  | char hquote hopens h => exact .char hquote hopens h
  | string hquote hw h => exact .string hquote hw h

theorem SameFront.head? (h : SameFront s t) : s.head? = t.head? := by
  cases h <;> rfl

theorem skip_quote (h : IsQuote c) (s : List Char) : skip (c :: s) = c :: s := by
  rcases h with rfl | rfl <;> exact skip_cons rfl (by decide)

theorem Relaid.front (h : Relaid s t) : SameFront (skip s) (skip t) := by
  induction h with
  | same => exact .same _
  | @char c s t hquote hopens h ih =>
    cases hblank : Text.isBlank c with
    | true =>
      rw [skip_blank hblank, skip_blank hblank]
      exact ih
    | false =>
      have hopens' : ¬ OpensComment c t := by
        rintro ⟨rfl, ht | ht⟩
        · obtain ⟨r, rfl⟩ := List.head?_eq_some_iff.mp ht
          exact hopens ⟨rfl, .inl (h.head rfl)⟩
        · obtain ⟨r, rfl⟩ := List.head?_eq_some_iff.mp ht
          exact hopens ⟨rfl, .inr (h.head rfl)⟩
      rw [skip_solid hblank hopens, skip_solid hblank hopens']
      exact .char hquote hopens h
  | string hquote hw h =>
    rw [skip_quote hquote, skip_quote hquote]
    exact .string hquote hw h
  | comment hw _ ih =>
    rw [hw.skip, hw.skip]
    exact ih
  | layout hg _ hg' _ _ ih =>
    rw [hg.skip, hg'.skip]
    exact ih

end GraphPatterns.Parser
