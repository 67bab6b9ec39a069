/-
Blanks and comments, passed at byte positions. A comment is passed by the offset of what ends it; the
cursor comes to stand where the text goes on after all blanks and comments (`Scan.reaches_skipBlanks`).
-/
import GraphPatterns.Proofs.Fronts
import GraphPatterns.Proofs.Cursors

namespace GraphPatterns

namespace Parser

variable {s t : List Char}

/-- A comment with a closing mark ends where the mark is found first. -/
theorem skipFrom_block_of_findText? (s : List Char) :
    match findText? ['*', '/'] s with
    | some n => ∃ t r, s = t ++ '*' :: '/' :: r ∧ byteCount t = n ∧ skipFrom .block s = skip r
    | none => skipFrom .block s = [] := by
  induction s with
  | nil => rfl
  | cons c s ih =>
    rw [findText?]
    by_cases hclose : c = '*' ∧ s.head? = some '/'
    · obtain ⟨rfl, hs⟩ := hclose
      obtain ⟨r, rfl⟩ := List.head?_eq_some_iff.mp hs
      have hclosed : ['*', '/'].isPrefixOf ('*' :: '/' :: r) = true := by simp
      rw [if_pos hclosed]
      exact ⟨[], r, rfl, rfl, rfl⟩
    · have hclosed : ['*', '/'].isPrefixOf (c :: s) = false := by
        refine Bool.eq_false_iff.mpr fun h => hclose ?_
        obtain ⟨r, hr⟩ := List.isPrefixOf_iff_prefix.mp h
        obtain ⟨rfl, rfl⟩ := List.cons.inj hr
        exact ⟨rfl, rfl⟩
      rw [hclosed, if_neg Bool.false_ne_true, skipFrom_block_cons hclose]
      cases hfind : findText? ['*', '/'] s with
      | none =>
        rw [hfind] at ih
        exact ih
      | some n =>
        rw [hfind] at ih
        obtain ⟨t, r, rfl, rfl, hskip⟩ := ih
        exact ⟨c :: t, r, rfl, (byteCount_cons c t).trans (Nat.add_comm ..), hskip⟩

end Parser

open GraphPatterns.Parser (skip)

namespace Scan

variable {source : Source} {c : TextCursor} {s : List Char}

/-! ## Skipping at byte positions -/

theorem ends_skipLine (h : c.IsAt source.text ('/' :: '/' :: s)) :
    (skipLine source c).Ends source.text c.position
      (fun _ u => u.length ≤ s.length ∧ skip u = Parser.skipFrom .line s) fun _ => False := by
  refine reaches_bind (reaches_rest h) fun c' hc' => ?_
  cases hfind : findChar? (· == '\n') ('/' :: '/' :: s) with
  | none =>
    have hline : Parser.skipFrom .line s = [] := by
      have hnone := of_findChar?_eq_none hfind
      have happend := Parser.skipFrom_line_append (t := s) (fun d hd => by simpa using hnone d (by simp [hd])) []
      rwa [List.append_nil] at happend
    refine reaches_bind (reaches_source hc') fun c'' hc'' => ?_
    refine (reaches_toEnd hc'').mono (Nat.le_refl _) ?_ fun _ h => h
    rintro _ _ ⟨-, rfl⟩
    exact ⟨Nat.zero_le _, hline.symm⟩
  | some n =>
    obtain ⟨t, d, r, hs, hn, ht, hd⟩ := exists_of_findChar? hfind
    obtain rfl : d = '\n' := by simpa using hd
    -- The two slashes are no end of a line, so they stand before it.
    obtain ⟨t, rfl⟩ : ∃ t', t = '/' :: '/' :: t' := by
      rcases t with _ | ⟨a, _ | ⟨b, t⟩⟩
      · cases hs
      · cases hs
      · simp only [List.cons_append, List.cons.injEq] at hs
        obtain ⟨rfl, rfl, -⟩ := hs
        exact ⟨t, rfl⟩
    obtain rfl : s = t ++ '\n' :: r := by simpa using hs
    refine (reaches_advance (t := '/' :: '/' :: t) hc' hn).mono (Nat.le_refl _) ?_ fun _ h => h
    rintro _ _ ⟨-, rfl⟩
    refine ⟨by simp, ?_⟩
    rw [Parser.skipFrom_line_append fun d hd => by simpa using ht d (by simp [hd])]
    exact Parser.skip_blank rfl r

/-- The closing mark is searched for after the two characters that open the comment. -/
theorem reaches_inside (h : c.IsAt source.text ('/' :: '*' :: s)) {c' : TextCursor}
    (h' : c'.IsAt source.text ('/' :: '*' :: s)) :
    (cut (sliceFrom? source.text (c.position + 2)) source c').Reaches source.text c'.position s
      ('/' :: '*' :: s) := by
  obtain ⟨before, htext, hcount⟩ := h.split
  have hcut : sliceFrom? source.text (c.position + 2) = some s := by
    have hslice := sliceFrom?_append (before ++ ['/', '*']) s
    rwa [byteCount_append, hcount, List.append_assoc, List.cons_append, List.singleton_append,
      ← htext] at hslice
  rw [hcut]
  exact reaches_pure h' s

theorem ends_skipBlock (h : c.IsAt source.text ('/' :: '*' :: s)) :
    (skipBlock source c).Ends source.text c.position
      (fun _ u => u.length ≤ s.length ∧ skip u = Parser.skipFrom .block s) fun _ => False := by
  refine reaches_bind (reaches_source h) fun c hc => ?_
  refine reaches_bind (reaches_position hc) fun c' hc' => ?_
  refine reaches_bind (reaches_inside hc hc') fun c hc => ?_
  have hblock := Parser.skipFrom_block_of_findText? s
  change ScanOutcome.Ends ((match findText? ['*', '/'] s with
    | some offset => advance (offset + 4)
    | none => Scan.source >>= fun source => moveTo (byteCount source.text)) source c) _ _ _ _
  cases hfind : findText? ['*', '/'] s with
  | none =>
    rw [hfind] at hblock
    refine reaches_bind (reaches_source hc) fun c' hc' => ?_
    refine (reaches_toEnd hc').mono (Nat.le_refl _) ?_ fun _ h => h
    rintro _ _ ⟨-, rfl⟩
    exact ⟨Nat.zero_le _, hblock.symm⟩
  | some n =>
    rw [hfind] at hblock
    obtain ⟨t, r, rfl, rfl, hskip⟩ := hblock
    have hwidth : byteCount ('/' :: '*' :: (t ++ ['*', '/'])) = byteCount t + 4 := by
      simp only [byteCount_cons, byteCount_append, byteCount_nil]
      have hslash : '/'.utf8Size = 1 := rfl
      have hstar : '*'.utf8Size = 1 := rfl
      omega
    refine (reaches_advance (s := r) (by simpa using hc) hwidth).mono (Nat.le_refl _) ?_ fun _ h => h
    rintro _ _ ⟨-, rfl⟩
    exact ⟨by simp only [List.length_cons, List.length_append]; omega, hskip.symm⟩

/-- One round passes a blank or a comment, or ends the loop where there is none. -/
theorem ends_skipOne (h : c.IsAt source.text s) :
    (skipOne source c).Ends source.text c.position
      (fun | .inl _, t => t.length < s.length ∧ skip t = skip s | .inr _, t => t = s ∧ skip s = s)
      fun _ => False := by
  refine reaches_bind (reaches_peekChar h) fun c hc => ?_
  cases s with
  | nil => exact ends_pure hc ⟨rfl, rfl⟩
  | cons d s =>
    simp only [List.head?_cons]
    cases hblank : Text.isBlank d with
    | true =>
      refine reaches_bind (reaches_advance (t := [d]) hc (by simp)) fun _ hc => ends_pure hc ?_
      exact ⟨Nat.lt_add_one _, (Parser.skip_blank hblank s).symm⟩
    | false =>
      rw [if_neg Bool.false_ne_true]
      refine reaches_bind (reaches_isTextNext hc "//") fun c hc => ?_
      cases hline : "//".toList.isPrefixOf (d :: s) with
      | true =>
        obtain ⟨r, hr⟩ := List.isPrefixOf_iff_prefix.mp hline
        obtain ⟨rfl, rfl⟩ : '/' = d ∧ '/' :: r = s := List.cons.inj hr
        refine ends_bind (ends_skipLine hc) (fun _ t c' ht hc' => ends_pure hc' ?_) fun _ h => h
        exact ⟨Nat.lt_of_le_of_lt ht.1 (by simp only [List.length_cons]; omega), ht.2⟩
      | false =>
        rw [if_neg Bool.false_ne_true]
        refine reaches_bind (reaches_isTextNext hc "/*") fun c hc => ?_
        cases hblock : "/*".toList.isPrefixOf (d :: s) with
        | true =>
          obtain ⟨r, hr⟩ := List.isPrefixOf_iff_prefix.mp hblock
          obtain ⟨rfl, rfl⟩ : '/' = d ∧ '*' :: r = s := List.cons.inj hr
          refine ends_bind (ends_skipBlock hc) (fun _ t c' ht hc' => ends_pure hc' ?_) fun _ h => h
          exact ⟨Nat.lt_of_le_of_lt ht.1 (by simp only [List.length_cons]; omega), ht.2⟩
        | false =>
          refine ends_pure hc ⟨rfl, Parser.skip_solid hblank ?_⟩
          rintro ⟨rfl, hs | hs⟩
          · obtain ⟨r, rfl⟩ := List.head?_eq_some_iff.mp hs
            cases hline
          · obtain ⟨r, rfl⟩ := List.head?_eq_some_iff.mp hs
            cases hblock

theorem reaches_skipBlanks (hpatient : source.IsPatient) (h : c.IsAt source.text s) :
    (skipBlanks source c).Reaches source.text c.position () (skip s) := by
  refine ends_passing (ends_loop List.length (fun _ t => skip t = skip s) hpatient (fun _ => Nat.le_refl _) ?_ h rfl)
  intro _ t c ht hc
  refine (ends_skipOne hc).mono (Nat.le_refl _) ?_ fun _ h => h
  rintro (_ | _) u hu
  · exact ⟨hu.1, hu.2.trans ht⟩
  · exact ⟨rfl, hu.1.trans (hu.2.symm.trans ht)⟩

end Scan

end GraphPatterns
