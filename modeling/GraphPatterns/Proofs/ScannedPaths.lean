/-
Path patterns and graph patterns at byte positions. Two runs go back: the one for a name without an equals
sign after it, and the one for a parenthesis that starts no group. They go back to where they have stood.
-/
import GraphPatterns.Proofs.ScannedElements

namespace GraphPatterns.Scan

open GraphPatterns.Parser (Failure skip)

variable {α β : Type} {source : Source} {bound : Nat} {c : TextCursor} {s : List Char} {inner : Scan PathExpr}
  {parse : Parser.Parse PathExpr} {Post : α → List Char → Prop} {Error : Failure → Prop}

/-! ## What stands before a path -/

theorem follows_declaration (hpatient : source.IsPatient) (hc : c.IsNear source.text s) :
    (declaration source c).Follows source.text c.position s (.ok (Parser.declaration s)) := by
  refine follows_passing (follows_skipBlanks hpatient hc fun c hstart => ?_)
  refine follows_after (reaches_isNameNext hstart) fun c hstart => ?_
  rw [Parser.declaration, Parser.declaration?]
  cases hname : Parser.isAtName s with
  | false =>
    rw [Parser.isAtName] at hname
    rw [hname, if_neg Bool.false_ne_true, if_neg Bool.false_ne_true]
    exact follows_pure hstart.isNear_skip
  | true =>
    have hread := Parser.identifier_eq hname
    generalize String.ofList _ = name, (skip s).dropWhile _ = r at hread
    rw [Parser.isAtName] at hname
    rw [hname, if_pos rfl, if_pos rfl, hread]
    have hidentifier := follows_identifier hpatient hstart.isNear_skip
    rw [hread] at hidentifier
    refine ends_position (ends_bind_back hidentifier ?_ fun e he => by cases he)
    rintro _ t c' ⟨_, ⟨⟩, ht, hle⟩ hc' hforward
    have hequals := finds_tryChar hpatient '='
    dsimp only
    cases hr : Parser.char? '=' r with
    | some u =>
      obtain ⟨hfound, hlt⟩ := hequals.found ⟨t, hc', ht⟩ hr
      refine ScanOutcome.Ends.mono ?_ hforward (fun _ _ h => h) fun _ h => h
      exact reaches_bind hfound fun c hc => ends_pure hc ⟨u, rfl, rfl, by omega⟩
    | none =>
      refine ends_bind_back (hequals.absent ⟨t, hc', ht⟩ hr) ?_ fun _ h => h.elim
      rintro _ _ c'' ⟨rfl, rfl⟩ hc'' -
      refine ends_moveTo hstart hc'' fun c hc _ => ?_
      exact ends_pure hc ⟨s, rfl, Parser.skip_skip s, Nat.le_refl _⟩

theorem declaration_bind {next : Option String → Scan α} {result : Except Failure (α × List Char)}
    (hpatient : source.IsPatient) (hc : c.IsNear source.text s)
    (hnext : ∀ name r c', Parser.declaration s = (name, r) → c'.IsNear source.text r →
      (skip r).length ≤ (skip s).length → (next name source c').Follows source.text c'.position r result) :
    ((declaration >>= next) source c).Follows source.text c.position s result := by
  refine ends_bind (follows_declaration hpatient hc) ?_ fun e he => by cases he
  rintro name t c' ⟨r, hr, ht, hle⟩ hc'
  exact (hnext name r c' (Except.ok.inj hr) ⟨t, hc', ht⟩ hle).mono_text hle

/-- The words for path modes. -/
def modes : List (String × PathMode) :=
  [("WALK", .walk), ("TRAIL", .trail), ("SIMPLE", .simple), ("ACYCLIC", .acyclic)]

theorem mode_eq (s : List Char) : Parser.mode s =
    match Parser.keywordChoice? modes s with
    | some (m, r) => (some m, Parser.skipPathWord r)
    | none => (none, s) := rfl

theorem findsOne_modeWord (hpatient : source.IsPatient) :
    FindsOne source modeWord (Parser.keywordChoice? modes) := by
  have hword {k : String} (hk : k.toList ≠ []) := finds_tryKeyword hpatient hk
  refine ((findsOne_cons (hword (by decide)) <| findsOne_cons (hword (by decide)) <|
    findsOne_cons (hword (by decide)) <| findsOne_single (hword (by decide))).congr fun s => ?_).passing
  simp only [modes, Parser.keywordChoice?]
  cases Parser.keyword? "WALK" s <;> cases Parser.keyword? "TRAIL" s <;> cases Parser.keyword? "SIMPLE" s <;>
    cases Parser.keyword? "ACYCLIC" s <;> rfl

theorem ends_skipPathWord (hpatient : source.IsPatient) (hc : c.IsNear source.text s) :
    (skipPathWord source c).Ends source.text c.position
      (fun _ t => skip t = skip (Parser.skipPathWord s) ∧
        (skip (Parser.skipPathWord s)).length ≤ (skip s).length) fun _ => False := by
  have hword {k : String} (hk : k.toList ≠ []) := finds_tryKeyword hpatient hk
  have hfinds := finds_tryEither (hword (k := "PATHS") (by decide)) (hword (k := "PATH") (by decide))
  rw [Parser.skipPathWord]
  cases hr : (Parser.keyword? "PATHS" s).or (Parser.keyword? "PATH" s) with
  | some r =>
    obtain ⟨hfound, hlt⟩ := hfinds.found hc hr
    exact ends_passing (reaches_bind hfound fun c hc => ends_pure hc ⟨rfl, Nat.le_of_lt hlt⟩)
  | none =>
    exact ends_passing (reaches_bind (hfinds.absent hc hr) fun c hc =>
      ends_pure hc ⟨Parser.skip_skip s, Nat.le_refl _⟩)

theorem ends_selectorWords (hpatient : source.IsPatient) (hc : c.IsNear source.text s) :
    (selectorWords source c).Ends source.text c.position
      (fun
        | some selector, t => ∃ r, Parser.selector s = .ok (some selector, Parser.skipPathWord r) ∧
            skip t = skip r ∧ (skip r).length < (skip s).length
        | none, t => Parser.selector s = .ok (none, s) ∧ skip t = skip s)
      fun e => Parser.selector s = .error e := by
  have hword {k : String} (hk : k.toList ≠ []) := finds_tryKeyword hpatient hk
  refine ends_passing ((hword (k := "ALL") (by decide)).ite hc (fun r c hall hc hlt => ?_) fun c hall hc => ?_)
  · refine (hword (k := "SHORTEST") (by decide)).ite hc.isNear (fun u c hu hc hlt' => ?_) fun c hu hc => ?_
    · exact ends_pure hc ⟨u, by simp [Parser.selector, hall, hu], rfl, by omega⟩
    · exact ends_pure hc ⟨r, by simp [Parser.selector, hall, hu], Parser.skip_skip r, hlt⟩
  refine (hword (k := "ANY") (by decide)).ite hc.isNear_skip (fun r c hany hc hlt => ?_) fun c hany hc => ?_
  · refine (hword (k := "SHORTEST") (by decide)).ite hc.isNear (fun u c hu hc hlt' => ?_) fun c hu hc => ?_
    · exact ends_pure hc ⟨u, by simp [Parser.selector, hall, hany, hu], rfl, by omega⟩
    refine skipBlanks_bind hpatient hc.isNear_skip fun c hc => ?_
    refine reaches_bind (reaches_isDigitNext hc) fun c hc => ?_
    change ScanOutcome.Ends ((if Parser.isAtDigit r = true then _ else _ : Scan _) source c) _ _ _ _
    cases hdigit : Parser.isAtDigit r with
    | true =>
      refine ends_bind (follows_integer hpatient hc.isNear_skip) ?_ fun e he => by
        simp [Parser.selector, hall, hany, hu, hdigit, he, Except.map]
      rintro k t c ⟨v, hv, ht, hle⟩ hc
      exact ends_pure hc ⟨v, by simp [Parser.selector, hall, hany, hu, hdigit, hv, Except.map], ht, by omega⟩
    | false =>
      exact ends_pure hc ⟨r, by simp [Parser.selector, hall, hany, hu, hdigit], Parser.skip_skip r, hlt⟩
  refine (hword (k := "SHORTEST") (by decide)).ite hc.isNear_skip (fun r c hr hc hlt => ?_) fun c hr hc => ?_
  · refine skipBlanks_bind hpatient hc.isNear fun c hc => ?_
    refine reaches_bind (reaches_isDigitNext hc) fun c hc => ?_
    change ScanOutcome.Ends ((if Parser.isAtDigit r = true then _ else _ : Scan _) source c) _ _ _ _
    cases hdigit : Parser.isAtDigit r with
    | true =>
      refine ends_bind (follows_integer hpatient hc.isNear_skip) ?_ fun e he => by
        simp [Parser.selector, hall, hany, hr, hdigit, he, Except.map]
      rintro k t c ⟨u, hu, ht, hle⟩ hc
      refine (finds_tryEither (hword (by decide)) (hword (by decide))).ite ⟨t, hc, ht⟩
        (fun v c hv hc hlt' => ?_) fun c hv hc => ?_
      · exact ends_pure hc ⟨v, by simp [Parser.selector, hall, hany, hr, hdigit, hu, hv, Except.map], rfl,
          by omega⟩
      · exact ends_pure hc ⟨u, by simp [Parser.selector, hall, hany, hr, hdigit, hu, hv, Except.map],
          Parser.skip_skip u, by omega⟩
    | false =>
      exact ends_pure hc ⟨r, by simp [Parser.selector, hall, hany, hr, hdigit], Parser.skip_skip r, hlt⟩
  · exact ends_pure hc ⟨by simp [Parser.selector, hall, hany, hr], Parser.skip_skip s⟩

/-- What is left to be found of a selector and a mode. -/
def selectorAndModeAfter : Option Selector × Option PathMode → Parser.Parse (Option Selector × Option PathMode)
  | (none, none), s => Parser.selectorAndMode s
  | (some selector, none), s => .ok ((some selector, (Parser.mode s).1), (Parser.mode s).2)
  | (none, some mode), s => (Parser.selector s).map fun (selector, r) => ((selector, some mode), r)
  | (some selector, some mode), s => .ok ((some selector, some mode), s)

variable {result : Except Failure ((Option Selector × Option PathMode) × List Char)}
  {found : Option Selector × Option PathMode}

theorem round_skipPathWord (hpatient : source.IsPatient) {r : List Char} (hc : c.IsNear source.text r)
    (hlt : (skip r).length < (skip s).length)
    (hresult : result = selectorAndModeAfter found (Parser.skipPathWord r)) :
    ((skipPathWord >>= fun _ => pure (.inl found)) source c).FollowsRound source.text c.position s
      (fun _ => selectorAndModeAfter) result := by
  refine ends_bind (ends_skipPathWord hpatient hc) ?_ fun _ h => h.elim
  rintro _ t c ⟨ht, hle⟩ hc
  exact round_next ⟨t, hc, ht⟩ hresult (Nat.lt_of_le_of_lt hle hlt) (Nat.le_refl _)

theorem round_modeWord (hpatient : source.IsPatient) (hc : c.IsNear source.text s)
    (hsome : ∀ m r, Parser.mode s = (some m, r) → result = selectorAndModeAfter (found.1, some m) r)
    (hnone : Parser.mode s = (none, s) → result = .ok (found, s)) :
    ((do
      match ← modeWord with
      | some mode =>
        skipPathWord
        return Sum.inl (found.1, some mode)
      | none => return Sum.inr found) source c).FollowsRound source.text c.position s
      (fun _ => selectorAndModeAfter) result := by
  cases hmode : Parser.keywordChoice? modes s with
  | some one =>
    obtain ⟨m, r⟩ := one
    obtain ⟨hfound, hlt⟩ := (findsOne_modeWord hpatient).found hc hmode
    refine reaches_bind hfound fun c hc => round_skipPathWord hpatient hc.isNear hlt (hsome m _ ?_)
    rw [mode_eq, hmode]
  | none =>
    refine reaches_bind ((findsOne_modeWord hpatient).absent hc hmode) fun c hc => ?_
    exact round_stop hc.isNear_skip (hnone (by rw [mode_eq, hmode])) (Nat.le_refl _)

theorem follows_selectorAndMode (hpatient : source.IsPatient) (hc : c.IsNear source.text s) :
    (selectorAndMode source c).Follows source.text c.position s (Parser.selectorAndMode s) := by
  refine follows_passing (follows_loop (fun _ => selectorAndModeAfter) hpatient ?_ hc (Nat.lt_add_one _)
    (Nat.le_refl _))
  rintro n ⟨_ | selector, _ | mode⟩ s c hc - -
  · refine ends_bind (ends_selectorWords hpatient hc) ?_ fun e he => ?_
    · rintro (_ | selector) t c hread hc
      · obtain ⟨hread, ht⟩ := hread
        refine round_modeWord hpatient ⟨t, hc, ht⟩ (fun m r hm => ?_) fun hm => ?_
        · simp only [selectorAndModeAfter, Parser.selectorAndMode, hread, bind, Except.bind, hm]
          cases Parser.selector r <;> rfl
        · simp only [selectorAndModeAfter, Parser.selectorAndMode, hread, bind, Except.bind, hm]
          rfl
      · obtain ⟨r, hread, ht, hlt⟩ := hread
        refine round_skipPathWord hpatient ⟨t, hc, ht⟩ hlt ?_
        simp only [selectorAndModeAfter, Parser.selectorAndMode, hread, bind, Except.bind]
        rfl
    · simp only [selectorAndModeAfter, Parser.selectorAndMode, he, bind, Except.bind]
  · refine ends_bind (ends_selectorWords hpatient hc) ?_ fun e he => ?_
    · rintro (_ | selector) t c hread hc
      · obtain ⟨hread, ht⟩ := hread
        refine round_stop ⟨t, hc, ht⟩ ?_ (Nat.le_refl _)
        simp only [selectorAndModeAfter, hread, Except.map]
      · obtain ⟨r, hread, ht, hlt⟩ := hread
        refine round_skipPathWord hpatient ⟨t, hc, ht⟩ hlt ?_
        simp only [selectorAndModeAfter, hread, Except.map]
    · simp only [selectorAndModeAfter, he, Except.map]
  · refine round_modeWord hpatient hc (fun m r hm => ?_) fun hm => ?_
    · simp only [selectorAndModeAfter, hm]
    · simp only [selectorAndModeAfter, hm]
  · exact round_stop hc rfl (Nat.le_refl _)

/-! ## Groups -/

/-- What is read after a mode and the word for paths, or without them. -/
theorem mode_bind {next : Option PathMode → Scan α} {result : Except Failure (α × List Char)}
    (hpatient : source.IsPatient) (hc : c.IsNear source.text s)
    (hnext : ∀ m r c', Parser.mode s = (m, r) → c'.IsNear source.text r →
      (skip r).length ≤ (skip s).length → (next m source c').Follows source.text c'.position r result) :
    ((do
      let mode ← modeWord
      if mode.isSome then skipPathWord
      next mode) source c).Follows source.text c.position s result := by
  cases hmode : Parser.keywordChoice? modes s with
  | some one =>
    obtain ⟨m, r⟩ := one
    obtain ⟨hfound, hlt⟩ := (findsOne_modeWord hpatient).found hc hmode
    refine reaches_bind hfound fun c hc => ?_
    refine ends_bind (ends_skipPathWord hpatient hc.isNear) ?_ fun _ h => h.elim
    rintro _ t c ⟨ht, hle⟩ hc
    have hle' := Nat.le_trans hle (Nat.le_of_lt hlt)
    exact (hnext (some m) _ c (by rw [mode_eq, hmode]) ⟨t, hc, ht⟩ hle').mono_text hle'
  | none =>
    refine reaches_bind ((findsOne_modeWord hpatient).absent hc hmode) fun c hc => ?_
    exact hnext none s c (by rw [mode_eq, hmode]) hc.isNear_skip (Nat.le_refl _)

theorem advances_group (hpatient : source.IsPatient) (h : Follows source bound inner parse)
    (hc : c.IsNear source.text s) (hs : (skip s).length < bound + 1) :
    (group inner source c).Advances source.text c.position s (Parser.group parse s) := by
  refine ends_passing (advances_expect (ends_expectChar hpatient hc '(') fun r c hc hlt => ?_)
  refine declaration_bind hpatient hc fun name u c hname hc hle => ?_
  rw [hname]
  refine mode_bind hpatient hc fun m v c hm hc hle' => ?_
  simp only [hm]
  refine follows_skipBlanks hpatient hc fun c hc => ?_
  refine follows_after (reaches_isNext hc '(') fun c hc => ?_
  change ScanOutcome.Follows ((if Parser.isAt '(' v = true then _ else _ : Scan _) source c) _ _ _ _
  cases hopen : Parser.isAt '(' v with
  | true =>
    refine follows_bind (h c v hc.isNear_skip (by omega)) fun body w c hc _ => ?_
    refine follows_bind (follows_condition hpatient hc) fun condition w c hc _ => ?_
    exact follows_expect (ends_expectChar hpatient hc ')') fun w c hc _ => follows_pure hc
  | false => exact follows_fail hc

/-! ## Factors -/

theorem follows_repeated (hpatient : source.IsPatient) (hc : c.IsNear source.text s) (element : Element) :
    (repeated element source c).Follows source.text c.position s (Parser.repeated element s) :=
  follows_passing (follows_map (follows_quantifier hpatient hc) fun _ _ _ hc _ => follows_pure hc)

/-- A run that may fail. What is read after a failure starts where the cursor is moved back to. -/
theorem attempt_bind {p : Scan β} {next : Option β → Scan α} {first : Except Failure (β × List Char)}
    (h : (p source c).Advances source.text c.position s first)
    (hsome : ∀ b r c', first = .ok (b, r) → c'.IsNear source.text r → (skip r).length < (skip s).length →
      (next (some b) source c').Ends source.text c'.position Post Error)
    (hnone : ∀ e c', first = .error e → c'.IsAt source.text e.rest →
      (next none source c').Ends source.text c.position Post Error) :
    ((attempt p >>= next) source c).Ends source.text c.position Post Error := by
  change (andThen (attempt p) next source c).Ends _ _ _ _
  rw [andThen, attempt]
  cases hp : p source c with
  | done b c' =>
    rw [hp] at h
    obtain ⟨hle, t, hc', r, hr, ht, hlt⟩ := h
    exact (hsome b r c' hr ⟨t, hc', ht⟩ hlt).mono hle (fun _ _ h => h) fun _ h => h
  | failed problem c' =>
    rw [hp] at h
    obtain ⟨t, hc', hfirst⟩ := h
    exact hnone _ c' hfirst hc'
  | crashed c' =>
    rw [hp] at h
    exact h
  | endless c' =>
    rw [hp] at h
    exact h

theorem reaches_isEdgeNext (h : c.IsAt source.text (skip s)) :
    (isEdgeNext source c).Reaches source.text c.position (Parser.edge? s).isSome (skip s) := by
  rw [isSome_edge?]
  exact reaches_bind (reaches_isTextNext h "-") fun c hc => reaches_bind (reaches_isTextNext hc "~") fun c hc =>
    reaches_bind (reaches_isTextNext hc "<-") fun c hc => reaches_bind (reaches_isTextNext hc "<~") fun c hc =>
    reaches_pure hc _

theorem ends_factor (hpatient : source.IsPatient) (h : Follows source bound inner parse)
    (hc : c.IsNear source.text s) (hs : (skip s).length < bound + 1) (fs : Term) :
    (factor inner fs source c).Ends source.text c.position
      (fun
        | .inl gs, t => ∃ f r, Parser.factor? parse s = some (.ok (f, r)) ∧ gs = fs ++ [f] ∧ skip t = skip r ∧
            (skip r).length < (skip s).length
        | .inr gs, t => Parser.factor? parse s = none ∧ gs = fs ∧ t = skip s)
      fun e => Parser.factor? parse s = some (.error e) := by
  refine skipBlanks_bind hpatient hc fun c hc => ?_
  refine reaches_bind (reaches_isNext hc '(') fun c hc => ?_
  change ScanOutcome.Ends ((if Parser.isAt '(' s = true then _ else _ : Scan _) source c) _ _ _ _
  rw [Parser.factor?]
  cases hopen : Parser.isAt '(' s with
  | true =>
    refine ends_position (attempt_bind (advances_group hpatient h hc.isNear_skip hs) ?_ ?_)
    · intro element r c' hr hc hlt
      refine ends_bind (follows_repeated hpatient hc element) ?_ fun e he => ?_
      · rintro f t c ⟨u, hu, ht, hle⟩ hc
        exact ends_pure hc ⟨f, u, by simp [hr, hu], rfl, ht, by omega⟩
      · simp [hr, he]
    · intro e c' he hc'
      refine ends_moveTo hc hc' fun c hc _ => ?_
      refine ends_bind (advances_node hpatient hc.isNear_skip) ?_ fun e' he' => ?_
      · rintro n t c ⟨r, hr, ht, hlt⟩ hc
        exact ends_pure hc ⟨_, r, by simp [he, hr, Except.map], rfl, ht, hlt⟩
      · simp [he, he', Except.map]
  | false =>
    refine reaches_bind (reaches_isEdgeNext hc) fun c hc => ?_
    cases hedge : Parser.edge? s with
    | some result =>
      refine ends_bind (advances_edge hpatient hc.isNear_skip hedge) ?_ fun e he => ?_
      · rintro e t c ⟨r, rfl, ht, hlt⟩ hc
        refine ends_bind (follows_repeated hpatient ⟨t, hc, ht⟩ (.edge e)) ?_ fun e' he' => ?_
        · rintro f t c ⟨u, hu, ht, hle⟩ hc
          exact ends_pure hc ⟨f, u, by simp [bind, Except.bind, hu], rfl, ht, by omega⟩
        · simp [bind, Except.bind, he']
      · simp [bind, Except.bind, he]
    | none => exact ends_pure hc ⟨by simp, rfl, rfl⟩

/-! ## Terms -/

theorem factors_ne_nil {n : Nat} {first : Except Failure (Factor × List Char)} {fs : Term} {r : List Char}
    (hfirst : Parser.factor? parse s = some first) (h : Parser.factors parse (n + 1) s = .ok (fs, r)) :
    fs ≠ [] := by
  rw [Parser.factors, hfirst] at h
  cases first with
  | error e => cases h
  | ok one =>
    cases hmore : Parser.factors parse n one.2 with
    | error e => simp [bind, Except.bind, hmore] at h
    | ok more =>
      simp only [bind, Except.bind, hmore, pure, Except.pure, Except.ok.injEq, Prod.mk.injEq] at h
      exact h.1 ▸ List.cons_ne_nil _ _

theorem follows_factors (hpatient : source.IsPatient) (h : Follows source bound inner parse)
    (hc : c.IsNear source.text s) (hs : (skip s).length < bound + 1) :
    (loop (factor inner) [] source c).Follows source.text c.position s
      (Parser.factors parse (s.length + 1) s) := by
  rw [← afterItems_nil (Parser.factors _ _ _)]
  refine follows_loop (fun n fs s => afterItems fs (Parser.factors parse (n + 1) s)) hpatient ?_ hc hs
    (Parser.length_skip_le s)
  intro n fs s c hc hs hn
  refine (ends_factor hpatient h hc hs fs).mono (Nat.le_refl _) ?_ fun e he => ?_
  · rintro (gs | gs) t hpost
    · obtain ⟨f, r, hf, rfl, ht, hlt⟩ := hpost
      obtain ⟨n, rfl⟩ : ∃ m, n = m + 1 := Nat.exists_eq_add_one.mpr (by omega)
      refine ⟨n, r, ?_, ht, hlt, by omega⟩
      rw [Parser.factors, hf]
      exact afterItems_cons fs f _
    · obtain ⟨hf, rfl, rfl⟩ := hpost
      refine ⟨s, ?_, Parser.skip_skip s, Nat.le_refl _⟩
      rw [Parser.factors, hf]
      simp
  · rw [Parser.factors, he]
    rfl

theorem follows_term (hpatient : source.IsPatient) (h : Follows source bound inner parse) :
    Follows source (bound + 1) (term inner) (Parser.term parse) := by
  intro c s hc hs
  rw [Parser.term]
  refine follows_passing ?_
  cases hfirst : Parser.factor? parse s with
  | none =>
    have hempty : (loop (factor inner) [] source c).Reaches source.text c.position [] (skip s) := by
      obtain ⟨t, hc, ht⟩ := hc
      refine ends_loop (fun t => (skip t).length) (fun fs t => fs = [] ∧ skip t = skip s) hpatient
        Parser.length_skip_le ?_ hc ⟨rfl, ht⟩
      rintro _ t c ⟨rfl, ht⟩ hc
      refine (ends_factor hpatient h ⟨t, hc, ht⟩ hs []).mono (Nat.le_refl _) ?_ fun e he => ?_
      · rintro (gs | gs) u hpost
        · obtain ⟨f, r, hf, -⟩ := hpost
          rw [hfirst] at hf
          cases hf
        · exact hpost.2
      · rw [hfirst] at he
        cases he
    refine reaches_bind hempty fun c hc => ?_
    rw [Parser.factors, hfirst]
    exact follows_fail hc
  | some first =>
    refine ends_bind (follows_factors hpatient h hc hs) ?_ fun e he => ?_
    · rintro fs t c ⟨r, hr, ht, hle⟩ hc
      have hne : fs.isEmpty = false := List.isEmpty_eq_false_iff.mpr (factors_ne_nil hfirst hr)
      rw [hr, hne, if_neg Bool.false_ne_true]
      exact ends_pure hc ⟨r, by simp [bind, Except.bind, hne, pure, Except.pure], ht, hle⟩
    · rw [he]
      rfl

/-! ## Alternatives -/

/-- Further terms after a bar, unless the other kind of bar comes next. -/
def unionAfter (term : Parser.Parse Term) (n : Nat) (terms : List Term) : Parser.Parse (List Term) := fun s => do
  let (rest, s) ← Parser.more Parser.unionBar term n s
  if (Parser.text? "|+|" s).isSome then Parser.fail .mixedAlternatives (skip s) else return (terms ++ rest, s)

theorem unionAfter_succ {term : Parser.Parse Term} {r : List Char} (hbar : Parser.unionBar s = some r) (n : Nat)
    (terms : List Term) :
    unionAfter term (n + 1) terms s = term r >>= fun (fs, u) => unionAfter term n (terms ++ [fs]) u := by
  rw [unionAfter, Parser.more, hbar]
  cases hr : term r with
  | error e => simp [bind, Except.bind, hr]
  | ok one =>
    cases hmore : Parser.more Parser.unionBar term n one.2 <;>
      simp [bind, Except.bind, pure, Except.pure, hr, hmore, unionAfter]

theorem follows_union (hpatient : source.IsPatient) (h : Follows source bound inner parse)
    (hc : c.IsNear source.text s) (hs : (skip s).length < bound + 1) {n : Nat} (hn : (skip s).length ≤ n)
    (terms : List Term) :
    (loop (unionTerm inner) terms source c).Follows source.text c.position s
      (unionAfter (Parser.term parse) n terms s) := by
  refine follows_loop (unionAfter (Parser.term parse)) hpatient ?_ hc hs hn
  intro n terms s c hc hs hn
  refine skipBlanks_bind hpatient hc fun c hc => ?_
  refine reaches_bind (reaches_isTextNext hc "|+|") fun c hc => ?_
  rw [← Parser.isSome_text?]
  have hstop (hbar : Parser.unionBar s = none) :
      Parser.more Parser.unionBar (Parser.term parse) n s = .ok ([], s) := by
    cases n with
    | zero => rfl
    | succ n => rw [Parser.more, hbar]
  cases hother : (Parser.text? "|+|" s).isSome with
  | true =>
    refine ⟨skip s, hc, ?_⟩
    rw [unionAfter, hstop (by rw [Parser.unionBar, hother]; rfl)]
    simp [bind, Except.bind, hother, Parser.fail]
  | false =>
    refine (finds_tryChar hpatient '|').ite hc.isNear_skip (fun r c hr hc hlt => ?_) fun c hr hc => ?_
    · obtain ⟨n, rfl⟩ : ∃ m, n = m + 1 := Nat.exists_eq_add_one.mpr (by omega)
      have hbar : Parser.unionBar s = some r := by simp [Parser.unionBar, hother, hr]
      rw [unionAfter_succ hbar]
      refine round_bind (follows_term hpatient h c r hc.isNear (by omega)) (fun fs u c hu hc hle => ?_)
        fun e he => by rw [he]; rfl
      rw [hu]
      exact round_next (n := n) hc rfl (by omega) (by omega)
    · refine round_stop hc.isNear_skip ?_ (Nat.le_refl _)
      rw [unionAfter, hstop (by simp [Parser.unionBar, hother, hr])]
      simp [bind, Except.bind, hother, pure, Except.pure]

theorem more_bind {token : List Char → Option (List Char)} {term : Parser.Parse Term} {r : List Char}
    (htoken : token s = some r) (n : Nat) (first : Term)
    (f : List Term × List Char → Except Failure (α × List Char)) :
    (Parser.more token term (n + 1) s >>= fun (rest, u) => f (first :: rest, u)) =
      term r >>= fun (second, u) => afterItems [first, second] (Parser.more token term n u) >>= f := by
  have hafter := afterItems_more term htoken n [first]
  calc
    _ = afterItems [first] (Parser.more token term (n + 1) s) >>= f := by
      cases Parser.more token term (n + 1) s <;> rfl
    _ = _ := by
      rw [hafter, bind_assoc]
      rfl

theorem union_bind {term : Parser.Parse Term} {r : List Char} (hbar : Parser.unionBar s = some r) (n : Nat)
    (first : Term) :
    (Parser.more Parser.unionBar term (n + 1) s >>= fun (rest, u) =>
      if (Parser.text? "|+|" u).isSome then Parser.fail .mixedAlternatives (skip u)
      else .ok (PathExpr.union (first :: rest), u)) =
      term r >>= fun (second, u) => unionAfter term n [first, second] u >>=
        fun (terms, u) => .ok (PathExpr.union terms, u) := by
  calc
    _ = unionAfter term (n + 1) [first] s >>= fun (terms, u) => .ok (PathExpr.union terms, u) := by
      rw [unionAfter, bind_assoc]
      refine congrArg _ (funext fun (rest, u) => ?_)
      dsimp only
      split <;> rfl
    _ = _ := by
      rw [unionAfter_succ hbar, bind_assoc]
      rfl

theorem follows_pathExprOver (hpatient : source.IsPatient) (h : Follows source bound inner parse) :
    Follows source (bound + 1) (pathExprOver inner) (Parser.pathExprOver parse) := by
  have hterm := follows_term hpatient h
  intro c s hc hs
  refine follows_passing (follows_bind (hterm c s hc hs) fun first r c hc hle => ?_)
  have hn {u : List Char} (hlt : (skip u).length < (skip r).length) :
      ∃ n, r.length = n + 1 ∧ (skip u).length ≤ n := by
    have hle := Parser.length_skip_le r
    exact ⟨r.length - 1, by omega, by omega⟩
  refine (finds_tryText hpatient (by decide)).follows hc (fun u c hu hc hlt => ?_) fun c hu hc => ?_
  · obtain ⟨n, hn, hun⟩ := hn hlt
    simp only [hu, hn]
    refine ScanOutcome.Follows.of_eq ?_ (more_bind hu n first fun (terms, w) =>
      if Parser.isAt '|' w then Parser.fail .mixedAlternatives (skip w) else .ok (PathExpr.multiset terms, w))
    refine follows_bind (hterm c u hc.isNear (by omega)) fun second v c hc hle' => ?_
    refine follows_bind (follows_more hpatient (finds_tryText hpatient (by decide)) hterm hc (by omega)
      (by omega) [first, second]) fun terms w c hc _ => ?_
    refine follows_skipBlanks hpatient hc fun c hc => ?_
    refine follows_after (reaches_isTextNext hc "|") fun c hc => ?_
    rw [Parser.isPrefixOf_eq_isAt (c := '|') rfl]
    dsimp only
    cases Parser.isAt '|' w with
    | true => exact follows_fail hc
    | false => exact follows_pure hc.isNear_skip
  · refine (finds_tryChar hpatient '|').follows hc.isNear_skip (fun v c hv hc hlt => ?_) fun c hv hc => ?_
    · obtain ⟨n, hn, hvn⟩ := hn hlt
      have hbar : Parser.unionBar r = some v := by simp [Parser.unionBar, hu, hv]
      simp only [hu, hv, hn]
      refine ScanOutcome.Follows.of_eq ?_ (union_bind hbar n first)
      refine follows_bind (hterm c v hc.isNear (by omega)) fun second w c hc hle' => ?_
      exact follows_bind (follows_union hpatient h hc (by omega) (by omega) [first, second])
        fun terms w c hc _ => follows_pure hc
    · simp only [hu, hv]
      exact follows_pure hc.isNear_skip

theorem follows_pathExprWithin (hpatient : source.IsPatient) {n m : Nat} (hn : bound ≤ n) (hm : bound ≤ m) :
    Follows source bound (pathExprWithin n) (Parser.pathExprWithin m) := by
  induction bound generalizing n m with
  | zero => exact fun _ _ _ hs => absurd hs (Nat.not_lt_zero _)
  | succ bound ih =>
    obtain ⟨n, rfl⟩ : ∃ k, n = k + 1 := Nat.exists_eq_add_one.mpr (Nat.zero_lt_of_lt hn)
    obtain ⟨m, rfl⟩ : ∃ k, m = k + 1 := Nat.exists_eq_add_one.mpr (Nat.zero_lt_of_lt hm)
    exact follows_pathExprOver hpatient (ih (Nat.le_of_succ_le_succ hn) (Nat.le_of_succ_le_succ hm))

/-! ## Patterns -/

theorem follows_path (hpatient : source.IsPatient) : Follows source bound path Parser.path := by
  intro c s hc _
  refine follows_passing (declaration_bind hpatient hc fun name r c hname hc hle => ?_)
  rw [Parser.path, hname]
  refine follows_bind (follows_selectorAndMode hpatient hc) fun found u c hc hle => ?_
  refine follows_source (follows_bind (follows_pathExprWithin hpatient (lt_rounds hpatient hc)
    (Nat.succ_le_succ (Parser.length_skip_le u)) c u hc (Nat.lt_add_one _)) fun e v c hc _ => ?_)
  exact follows_pure hc

theorem follows_matchMode (hpatient : source.IsPatient) (hc : c.IsNear source.text s) :
    (matchMode source c).Follows source.text c.position s (Parser.matchMode s) := by
  have hword {k : String} (hk : k.toList ≠ []) := finds_tryKeyword hpatient hk
  have hexpect {k : String} (hk : k.toList ≠ []) {mode : MatchMode} {r : List Char} {c : TextCursor}
      (hc : c.IsNear source.text r) :
      ((expectKeyword k >>= fun _ => pure (some mode)) source c).Follows source.text c.position r
        ((Parser.expectKeyword k r).map fun u => (some mode, u)) :=
    follows_expect (f := fun u => .ok (some mode, u)) (ends_expectKeyword hpatient hc hk)
      fun u c hc _ => follows_pure hc
  rw [Parser.matchMode]
  refine follows_passing ((hword (k := "REPEATABLE") (by decide)).follows hc (fun r c hr hc _ => ?_)
    fun c hr hc => ?_)
  · rw [hr]
    exact hexpect (by decide) hc.isNear
  rw [hr]
  refine (hword (k := "DIFFERENT") (by decide)).follows hc.isNear_skip (fun r c hr hc _ => ?_) fun c hr hc => ?_
  · rw [hr]
    exact hexpect (by decide) hc.isNear
  · rw [hr]
    exact follows_pure hc.isNear_skip

theorem follows_graph (hpatient : source.IsPatient) (hc : c.IsNear source.text s) :
    (graph source c).Follows source.text c.position s (Parser.graph s) := by
  refine follows_passing (follows_bind (follows_matchMode hpatient hc) fun m r c hc _ => ?_)
  refine follows_bind (follows_separated hpatient (finds_tryChar hpatient ',') (follows_path hpatient) c r hc
    (Nat.lt_add_one _)) fun paths u c hc _ => ?_
  exact follows_bind (follows_condition hpatient hc) fun condition v c hc _ => follows_pure hc

theorem skipToken_bind {isToken : Scan Bool} {token : List Char → Option (List Char)} {next : Bool → Scan β}
    {Post : β → List Char → Prop} (h : Finds source isToken token) (hc : c.IsNear source.text s)
    (hnext : ∀ found c', c'.IsNear source.text ((token s).getD s) →
      (next found source c').Ends source.text c'.position Post Error) :
    ((isToken >>= next) source c).Ends source.text c.position Post Error := by
  cases htoken : token s with
  | some r =>
    rw [htoken] at hnext
    exact reaches_bind (h.found hc htoken).1 fun c hc => hnext true c hc.isNear
  | none =>
    rw [htoken] at hnext
    exact reaches_bind (h.absent hc htoken) fun c hc => hnext false c hc.isNear_skip

theorem position_lt_iff (hc : c.IsAt source.text s) : c.position < byteCount source.text ↔ s ≠ [] := by
  obtain ⟨before, htext, hcount⟩ := hc.split
  rw [htext, byteCount_append, hcount]
  cases s with
  | nil => simp
  | cons d s =>
    have hpos := d.utf8Size_pos
    rw [byteCount_cons]
    simp only [ne_eq, reduceCtorEq, not_false_eq_true, iff_true]
    omega

/-- A whole text is read as its parser reads it. -/
theorem ends_text (hpatient : source.IsPatient) (hc : c.IsNear source.text s) :
    (text source c).Ends source.text c.position (fun g _ => Parser.text s = .ok g)
      fun e => Parser.text s = .error e := by
  refine ends_passing (skipToken_bind (finds_tryKeyword hpatient (by decide)) hc fun _ c hc => ?_)
  rw [Parser.text]
  refine ends_bind (follows_graph hpatient hc) ?_ fun e he => by rw [he]; rfl
  rintro g t c ⟨r, hr, ht, -⟩ hc
  rw [hr]
  refine skipToken_bind (finds_tryChar hpatient ';') ⟨t, hc, ht⟩ fun _ c hc => ?_
  refine skipBlanks_bind hpatient hc fun c hc => ?_
  refine ends_position (reaches_bind (reaches_source hc) fun c' hc' => ?_)
  simp only [bind, Except.bind]
  by_cases hempty : skip ((Parser.char? ';' r).getD r) = []
  · rw [if_neg (mt (position_lt_iff hc).mp (not_not_intro hempty)), hempty]
    exact ends_pure hc' rfl
  · rw [if_pos ((position_lt_iff hc).mpr hempty), List.isEmpty_eq_false_iff.mpr hempty]
    exact reaches_bind (reaches_rest hc') fun c hc => ⟨_, hc, rfl⟩

end GraphPatterns.Scan
