/-
Runs at byte positions that follow the parsers. What is left of the text may differ in the blanks and
comments in front of it, which the one passes earlier than the other (`TextCursor.IsNear`). A run follows a
parser if both read the same and leave the same, or fail for the same reason at the same place
(`ScanOutcome.Follows`); reading makes what is left, without the blanks in front of it, no longer.
-/
import GraphPatterns.Proofs.SkippedBlanks

namespace GraphPatterns

open GraphPatterns.Parser (Failure Problem skip)

/-- The cursor stands where the text goes on as given, but for blanks and comments. -/
def TextCursor.IsNear (c : TextCursor) (text s : List Char) : Prop := ∃ t, c.IsAt text t ∧ skip t = skip s

theorem TextCursor.IsAt.isNear {c : TextCursor} {text s : List Char} (h : c.IsAt text s) : c.IsNear text s :=
  ⟨s, h, rfl⟩

theorem TextCursor.IsAt.isNear_skip {c : TextCursor} {text s : List Char} (h : c.IsAt text (skip s)) :
    c.IsNear text s :=
  ⟨skip s, h, Parser.skip_skip s⟩

theorem TextCursor.IsNear.length_le {c : TextCursor} {text s : List Char} (h : c.IsNear text s) :
    (skip s).length ≤ text.length := by
  obtain ⟨t, hc, ht⟩ := h
  rw [← ht]
  exact Nat.le_trans (Parser.length_skip_le t) hc.length_le

/-- The run ends as a parser does that was given a text. -/
def ScanOutcome.Follows {α : Type} (o : ScanOutcome α) (text : List Char) (start : Nat) (s : List Char)
    (result : Except Failure (α × List Char)) : Prop :=
  o.Ends text start
    (fun a t => ∃ r, result = .ok (a, r) ∧ skip t = skip r ∧ (skip r).length ≤ (skip s).length)
    fun e => result = .error e

/-- The same where something is read. -/
def ScanOutcome.Advances {α : Type} (o : ScanOutcome α) (text : List Char) (start : Nat) (s : List Char)
    (result : Except Failure (α × List Char)) : Prop :=
  o.Ends text start
    (fun a t => ∃ r, result = .ok (a, r) ∧ skip t = skip r ∧ (skip r).length < (skip s).length)
    fun e => result = .error e

/-- One round of a loop ends as a parser does: with its result, or where the parser still has to read. The
parser has a bound, which what is left to be read never exceeds. -/
def ScanOutcome.FollowsRound {α β : Type} (o : ScanOutcome (β ⊕ α)) (text : List Char) (start : Nat)
    (s : List Char) (parse : Nat → β → Parser.Parse α) (result : Except Failure (α × List Char)) : Prop :=
  o.Ends text start
    (fun
      | .inl b, t => ∃ n r, result = parse n b r ∧ skip t = skip r ∧ (skip r).length < (skip s).length ∧
          (skip r).length ≤ n
      | .inr a, t => ∃ r, result = .ok (a, r) ∧ skip t = skip r ∧ (skip r).length ≤ (skip s).length)
    fun e => result = .error e

theorem ScanOutcome.Follows.of_eq {α : Type} {o : ScanOutcome α} {text : List Char} {start : Nat} {s : List Char}
    {result other : Except Failure (α × List Char)} (h : o.Follows text start s result) (heq : other = result) :
    o.Follows text start s other := heq ▸ h

theorem ScanOutcome.Follows.mono_text {α : Type} {o : ScanOutcome α} {text : List Char} {start : Nat}
    {r s : List Char} {result : Except Failure (α × List Char)} (h : o.Follows text start r result)
    (hle : (skip r).length ≤ (skip s).length) : o.Follows text start s result := by
  refine h.mono (Nat.le_refl _) ?_ fun _ h => h
  rintro a t ⟨r', hr', ht, hle'⟩
  exact ⟨r', hr', ht, Nat.le_trans hle' hle⟩

theorem ScanOutcome.Follows.advances {α : Type} {o : ScanOutcome α} {text : List Char} {start : Nat}
    {r s : List Char} {result : Except Failure (α × List Char)} (h : o.Follows text start r result)
    (hlt : (skip r).length < (skip s).length) : o.Advances text start s result := by
  refine h.mono (Nat.le_refl _) ?_ fun _ h => h
  rintro a t ⟨r', hr', ht, hle⟩
  exact ⟨r', hr', ht, Nat.lt_of_le_of_lt hle hlt⟩

theorem ScanOutcome.Advances.follows {α : Type} {o : ScanOutcome α} {text : List Char} {start : Nat}
    {s : List Char} {result : Except Failure (α × List Char)} (h : o.Advances text start s result) :
    o.Follows text start s result := by
  refine h.mono (Nat.le_refl _) ?_ fun _ h => h
  rintro a t ⟨r, hr, ht, hlt⟩
  exact ⟨r, hr, ht, Nat.le_of_lt hlt⟩

namespace Scan

variable {α β : Type}

/-- A run follows a parser on all texts that are shorter than a bound. -/
def Follows (source : Source) (bound : Nat) (p : Scan α) (parse : Parser.Parse α) : Prop :=
  ∀ c s, c.IsNear source.text s → (skip s).length < bound →
    (p source c).Follows source.text c.position s (parse s)

/-- A run finds a token where the parser of the token does. It comes to stand behind the token, or before
what stands there instead. -/
structure Finds (source : Source) (isToken : Scan Bool) (token : List Char → Option (List Char)) : Prop where
  found : ∀ {c s r}, c.IsNear source.text s → token s = some r →
    (isToken source c).Reaches source.text c.position true r ∧ (skip r).length < (skip s).length
  absent : ∀ {c s}, c.IsNear source.text s → token s = none →
    (isToken source c).Reaches source.text c.position false (skip s)

/-- The same for a choice between tokens. -/
structure FindsOne (source : Source) (p : Scan (Option α)) (choice : List Char → Option (α × List Char)) :
    Prop where
  found : ∀ {c s a r}, c.IsNear source.text s → choice s = some (a, r) →
    (p source c).Reaches source.text c.position (some a) r ∧ (skip r).length < (skip s).length
  absent : ∀ {c s}, c.IsNear source.text s → choice s = none →
    (p source c).Reaches source.text c.position none (skip s)

variable {source : Source} {bound : Nat} {c : TextCursor} {s r : List Char} {a : α}
  {Post : β → List Char → Prop} {Error : Failure → Prop}

/-! ## Single steps -/

theorem follows_pure (h : c.IsNear source.text s) :
    ((pure a : Scan α) source c).Follows source.text c.position s (.ok (a, s)) := by
  obtain ⟨t, hc, ht⟩ := h
  exact ends_pure hc ⟨s, rfl, ht, Nat.le_refl _⟩

theorem follows_fail {problem : Problem} {start : Nat} (h : c.IsAt source.text r) :
    ((fail problem : Scan α) source c).Follows source.text start s (Parser.fail problem r) :=
  ends_fail h rfl

theorem follows_bind {p : Scan α} {next : α → Scan β} {result : Except Failure (α × List Char)}
    {f : α × List Char → Except Failure (β × List Char)}
    (h : (p source c).Follows source.text c.position s result)
    (hnext : ∀ a r c', c'.IsNear source.text r → (skip r).length ≤ (skip s).length →
      (next a source c').Follows source.text c'.position r (f (a, r))) :
    ((p >>= next) source c).Follows source.text c.position s (result >>= f) := by
  refine ends_bind h ?_ ?_
  · rintro a t c' ⟨r, rfl, ht, hle⟩ hc'
    exact (hnext a r c' ⟨t, hc', ht⟩ hle).mono_text hle
  · rintro e rfl
    rfl

theorem follows_after {p : Scan β} {next : β → Scan α} {b : β} {t : List Char}
    {result : Except Failure (α × List Char)} (h : (p source c).Reaches source.text c.position b t)
    (hnext : ∀ c', c'.IsAt source.text t → (next b source c').Follows source.text c'.position s result) :
    ((p >>= next) source c).Follows source.text c.position s result := reaches_bind h hnext

theorem follows_source {next : Source → Scan α} {result : Except Failure (α × List Char)}
    (h : (next source source c).Follows source.text c.position s result) :
    ((Scan.source >>= next) source c).Follows source.text c.position s result := h

theorem ends_position {next : Nat → Scan α} {start : Nat} {Post : α → List Char → Prop}
    (h : (next c.position source c).Ends source.text start Post Error) :
    ((position >>= next) source c).Ends source.text start Post Error := h

theorem lt_rounds (hpatient : source.IsPatient) (h : c.IsNear source.text s) :
    (skip s).length < source.rounds := Nat.lt_of_le_of_lt h.length_le hpatient

theorem follows_map {p : Scan α} {next : α → Scan β} {result : Except Failure (α × List Char)}
    {f : α × List Char → β × List Char} (h : (p source c).Follows source.text c.position s result)
    (hnext : ∀ a r c', c'.IsNear source.text r → (skip r).length ≤ (skip s).length →
      (next a source c').Follows source.text c'.position r (.ok (f (a, r)))) :
    ((p >>= next) source c).Follows source.text c.position s (result.map f) :=
  follows_bind (f := fun y => .ok (f y)) h hnext

theorem follows_passing {p : Scan α} {result : Except Failure (α × List Char)}
    (h : (p source c).Follows source.text c.position s result) :
    (passing p source c).Follows source.text c.position s result := ends_passing h

/-! ## Loops -/

section

variable {parse : Nat → β → Parser.Parse α} {result : Except Failure (α × List Char)} {b : β} {n : Nat}

theorem round_next (h : c.IsNear source.text r) (hresult : result = parse n b r)
    (hlt : (skip r).length < (skip s).length) (hn : (skip r).length ≤ n) :
    ((pure (.inl b) : Scan (β ⊕ α)) source c).FollowsRound source.text c.position s parse result := by
  obtain ⟨t, hc, ht⟩ := h
  exact ends_pure hc ⟨n, r, hresult, ht, hlt, hn⟩

theorem round_stop (h : c.IsNear source.text r) (hresult : result = .ok (a, r))
    (hle : (skip r).length ≤ (skip s).length) :
    ((pure (.inr a) : Scan (β ⊕ α)) source c).FollowsRound source.text c.position s parse result := by
  obtain ⟨t, hc, ht⟩ := h
  exact ends_pure hc ⟨r, hresult, ht, hle⟩

theorem round_bind {γ : Type} {p : Scan γ} {next : γ → Scan (β ⊕ α)} {first : Except Failure (γ × List Char)}
    (h : (p source c).Follows source.text c.position r first)
    (hnext : ∀ g u c', first = .ok (g, u) → c'.IsNear source.text u → (skip u).length ≤ (skip r).length →
      (next g source c').FollowsRound source.text c'.position s parse result)
    (herror : ∀ e, first = .error e → result = .error e) :
    ((p >>= next) source c).FollowsRound source.text c.position s parse result := by
  refine ends_bind h ?_ herror
  rintro g t c' ⟨u, hu, ht, hle⟩ hc'
  exact hnext g u c' hu ⟨t, hc', ht⟩ hle

theorem follows_loop {round : β → Scan (β ⊕ α)} (parse : Nat → β → Parser.Parse α) (hpatient : source.IsPatient)
    (hround : ∀ n b s c, c.IsNear source.text s → (skip s).length < bound → (skip s).length ≤ n →
      (round b source c).FollowsRound source.text c.position s parse (parse n b s))
    (h : c.IsNear source.text s) (hs : (skip s).length < bound) (hn : (skip s).length ≤ n) :
    (loop round b source c).Follows source.text c.position s (parse n b s) := by
  obtain ⟨t, hc, ht⟩ := h
  refine ends_loop (fun t => (skip t).length) (fun b' t => ∃ m r, parse n b s = parse m b' r ∧
    skip t = skip r ∧ (skip r).length ≤ (skip s).length ∧ (skip r).length ≤ m) hpatient Parser.length_skip_le
    ?_ hc ⟨n, s, rfl, ht, Nat.le_refl _, hn⟩
  rintro b' t c ⟨m, r, hread, ht, hle, hm⟩ hc
  rw [hread, ht]
  refine (hround m b' r c ⟨t, hc, ht⟩ (Nat.lt_of_le_of_lt hle hs) hm).mono (Nat.le_refl _) ?_ fun _ h => h
  rintro (b'' | a) u hpost
  · obtain ⟨m', r', hread', hu, hlt, hm'⟩ := hpost
    exact ⟨hu ▸ hlt, m', r', hread', hu, by omega, hm'⟩
  · obtain ⟨r', hread', hu, hle'⟩ := hpost
    exact ⟨r', hread', hu, Nat.le_trans hle' hle⟩

end

/-! ## Blanks and tokens -/

theorem skipBlanks_bind {next : Unit → Scan β} (hpatient : source.IsPatient) (h : c.IsNear source.text s)
    (hnext : ∀ c', c'.IsAt source.text (skip s) →
      (next () source c').Ends source.text c'.position Post Error) :
    ((skipBlanks >>= next) source c).Ends source.text c.position Post Error := by
  obtain ⟨t, hc, ht⟩ := h
  exact reaches_bind (reaches_skipBlanks hpatient hc) fun c' hc' => hnext c' (ht ▸ hc')

theorem follows_skipBlanks {next : Unit → Scan α} {result : Except Failure (α × List Char)}
    (hpatient : source.IsPatient) (h : c.IsNear source.text s)
    (hnext : ∀ c', c'.IsAt source.text (skip s) →
      (next () source c').Follows source.text c'.position s result) :
    ((skipBlanks >>= next) source c).Follows source.text c.position s result :=
  skipBlanks_bind hpatient h hnext

theorem Finds.ite {isToken : Scan Bool} {token : List Char → Option (List Char)} {yes no : Scan β}
    (h : Finds source isToken token) (hc : c.IsNear source.text s)
    (hyes : ∀ r c', token s = some r → c'.IsAt source.text r → (skip r).length < (skip s).length →
      (yes source c').Ends source.text c'.position Post Error)
    (hno : ∀ c', token s = none → c'.IsAt source.text (skip s) →
      (no source c').Ends source.text c'.position Post Error) :
    ((isToken >>= fun found => if found = true then yes else no) source c).Ends source.text c.position
      Post Error := by
  cases htoken : token s with
  | some r =>
    obtain ⟨hfound, hlt⟩ := h.found hc htoken
    exact reaches_bind hfound fun c' hc' => hyes r c' htoken hc' hlt
  | none => exact reaches_bind (h.absent hc htoken) fun c' hc' => hno c' htoken hc'

theorem Finds.follows {isToken : Scan Bool} {token : List Char → Option (List Char)} {yes no : Scan α}
    {result : Except Failure (α × List Char)} (h : Finds source isToken token) (hc : c.IsNear source.text s)
    (hyes : ∀ r c', token s = some r → c'.IsAt source.text r → (skip r).length < (skip s).length →
      (yes source c').Follows source.text c'.position r result)
    (hno : ∀ c', token s = none → c'.IsAt source.text (skip s) →
      (no source c').Follows source.text c'.position s result) :
    ((isToken >>= fun found => if found = true then yes else no) source c).Follows source.text c.position s
      result :=
  h.ite hc (fun r c' htoken hc' hlt => (hyes r c' htoken hc' hlt).mono_text (Nat.le_of_lt hlt)) hno

theorem FindsOne.follows {p : Scan (Option β)} {choice : List Char → Option (β × List Char)}
    {next : Option β → Scan α} {result : Except Failure (α × List Char)} (h : FindsOne source p choice)
    (hc : c.IsNear source.text s)
    (hsome : ∀ b r c', choice s = some (b, r) → c'.IsAt source.text r → (skip r).length < (skip s).length →
      (next (some b) source c').Follows source.text c'.position r result)
    (hnone : ∀ c', choice s = none → c'.IsAt source.text (skip s) →
      (next none source c').Follows source.text c'.position s result) :
    ((p >>= next) source c).Follows source.text c.position s result := by
  cases hchoice : choice s with
  | some one =>
    obtain ⟨b, r⟩ := one
    obtain ⟨hfound, hlt⟩ := h.found hc hchoice
    exact reaches_bind hfound fun c' hc' => (hsome b r c' hchoice hc' hlt).mono_text (Nat.le_of_lt hlt)
  | none => exact reaches_bind (h.absent hc hchoice) fun c' hc' => hnone c' hchoice hc'

end Scan

end GraphPatterns
