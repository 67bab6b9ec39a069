/-
Parsers of tokens are blind to layout: what they read is the same in two texts that differ in their layout
alone, and so do the texts that are left. A parser with a bound is compared with itself under another bound,
since the two texts may differ in their length.
-/
import GraphPatterns.Pattern.Parser.Path
import GraphPatterns.Proofs.Layout

namespace GraphPatterns.Parser

/-- Both parsers fail, or both read the same and leave texts that differ in their layout alone. -/
def Agree {α : Type} (s t : List Char) (x y : Except Failure (α × List Char)) : Prop :=
  (∃ e f, x = .error e ∧ y = .error f) ∨
    ∃ a r u, x = .ok (a, r) ∧ y = .ok (a, u) ∧ Relaid r u ∧ r.length ≤ s.length ∧ u.length ≤ t.length

/-- The same where what is left is shorter. -/
def AgreeStrictly {α : Type} (s t : List Char) (x y : Except Failure (α × List Char)) : Prop :=
  (∃ e f, x = .error e ∧ y = .error f) ∨
    ∃ a r u, x = .ok (a, r) ∧ y = .ok (a, u) ∧ Relaid r u ∧ r.length < s.length ∧ u.length < t.length

/-- No token comes next, or the same one does in both texts. -/
def AgreeToken (s t : List Char) (x y : Option (List Char)) : Prop :=
  (x = none ∧ y = none) ∨
    ∃ r u, x = some r ∧ y = some u ∧ Relaid r u ∧ r.length < s.length ∧ u.length < t.length

/-- The same for a choice between tokens. -/
def AgreeChoice {α : Type} (s t : List Char) (x y : Option (α × List Char)) : Prop :=
  (x = none ∧ y = none) ∨
    ∃ a r u, x = some (a, r) ∧ y = some (a, u) ∧ Relaid r u ∧ r.length < s.length ∧ u.length < t.length

/-- There is nothing to be read in both texts, or there is in both. -/
def AgreeElement {α : Type} (s t : List Char) (x y : Option (Except Failure (α × List Char))) : Prop :=
  (x = none ∧ y = none) ∨ ∃ x' y', x = some x' ∧ y = some y' ∧ AgreeStrictly s t x' y'

/-- Two parsers agree on texts that are shorter than their bounds. -/
def Blind {α : Type} (k l : Nat) (p q : Parse α) : Prop :=
  ∀ ⦃s t : List Char⦄, Relaid s t → s.length < k → t.length < l → Agree s t (p s) (q t)

def BlindToken (token : List Char → Option (List Char)) : Prop :=
  ∀ ⦃s t : List Char⦄, Relaid s t → AgreeToken s t (token s) (token t)

def BlindChoice {α : Type} (choice : List Char → Option (α × List Char)) : Prop :=
  ∀ ⦃s t : List Char⦄, Relaid s t → AgreeChoice s t (choice s) (choice t)

variable {α β : Type} {s t r u : List Char} {k l : Nat} {a : α}

/-! ## Agreement -/

theorem agree_ok (h : Relaid s t) : Agree s t (.ok (a, s)) (.ok (a, t)) :=
  .inr ⟨a, s, t, rfl, rfl, h, Nat.le_refl _, Nat.le_refl _⟩

theorem agree_ok_of (h : Relaid r u) (hr : r.length ≤ s.length) (hu : u.length ≤ t.length) :
    Agree s t (.ok (a, r)) (.ok (a, u)) := .inr ⟨a, r, u, rfl, rfl, h, hr, hu⟩

theorem agree_fail {problem problem' : Problem} :
    Agree s t (fail problem r : Except Failure (α × List Char)) (fail problem' u) :=
  .inl ⟨_, _, rfl, rfl⟩

theorem Agree.mono {x y : Except Failure (α × List Char)} (h : Agree r u x y) (hr : r.length ≤ s.length)
    (hu : u.length ≤ t.length) : Agree s t x y := by
  rcases h with herror | ⟨a, r', u', hx, hy, h, hr', hu'⟩
  · exact .inl herror
  · exact .inr ⟨a, r', u', hx, hy, h, Nat.le_trans hr' hr, Nat.le_trans hu' hu⟩

theorem Blind.mono {m n : Nat} {p q : Parse α} (h : Blind k l p q) (hm : m ≤ k) (hn : n ≤ l) : Blind m n p q :=
  fun _ _ hst hs ht => h hst (Nat.lt_of_lt_of_le hs hm) (Nat.lt_of_lt_of_le ht hn)

theorem Agree.bind {x y : Except Failure (α × List Char)}
    {f g : α × List Char → Except Failure (β × List Char)} (h : Agree s t x y)
    (hnext : ∀ a r u, Relaid r u → r.length ≤ s.length → u.length ≤ t.length →
      Agree r u (f (a, r)) (g (a, u))) : Agree s t (x >>= f) (y >>= g) := by
  rcases h with ⟨e, e', rfl, rfl⟩ | ⟨a, r, u, rfl, rfl, h, hr, hu⟩
  · exact .inl ⟨e, e', rfl, rfl⟩
  · exact (hnext a r u h hr hu).mono hr hu

theorem Agree.map {x y : Except Failure (α × List Char)} {f g : α × List Char → β × List Char}
    (h : Agree s t x y)
    (hnext : ∀ a r u, Relaid r u → Agree r u (.ok (f (a, r))) (.ok (g (a, u)))) :
    Agree s t (x.map f) (y.map g) :=
  h.bind fun a r u hru _ _ => hnext a r u hru

theorem AgreeStrictly.agree {x y : Except Failure (α × List Char)} (h : AgreeStrictly s t x y) :
    Agree s t x y := by
  rcases h with herror | ⟨a, r, u, hx, hy, h, hr, hu⟩
  · exact .inl herror
  · exact .inr ⟨a, r, u, hx, hy, h, Nat.le_of_lt hr, Nat.le_of_lt hu⟩

theorem Agree.strictly {x y : Except Failure (α × List Char)} (h : Agree r u x y) (hr : r.length < s.length)
    (hu : u.length < t.length) : AgreeStrictly s t x y := by
  rcases h with herror | ⟨a, r', u', hx, hy, h, hr', hu'⟩
  · exact .inl herror
  · exact .inr ⟨a, r', u', hx, hy, h, Nat.lt_of_le_of_lt hr' hr, Nat.lt_of_le_of_lt hu' hu⟩

theorem AgreeStrictly.bind {x y : Except Failure (α × List Char)}
    {f g : α × List Char → Except Failure (β × List Char)} (h : AgreeStrictly s t x y)
    (hnext : ∀ a r u, Relaid r u → r.length < s.length → u.length < t.length →
      Agree r u (f (a, r)) (g (a, u))) : AgreeStrictly s t (x >>= f) (y >>= g) := by
  rcases h with ⟨e, e', rfl, rfl⟩ | ⟨a, r, u, rfl, rfl, h, hr, hu⟩
  · exact .inl ⟨e, e', rfl, rfl⟩
  · exact (hnext a r u h hr hu).strictly hr hu

theorem AgreeToken.elim {x y : Option (List Char)} {f g : List Char → Except Failure (α × List Char)}
    {a b : Except Failure (α × List Char)} : AgreeToken s t x y → Agree s t a b →
    (∀ r u, Relaid r u → r.length < s.length → u.length < t.length → Agree r u (f r) (g u)) →
    Agree s t (match x with | some r => f r | none => a) (match y with | some u => g u | none => b) := by
  rintro (⟨rfl, rfl⟩ | ⟨r, u, rfl, rfl, hru, hr, hu⟩) hnone hsome
  · exact hnone
  · exact (hsome r u hru hr hu).mono (Nat.le_of_lt hr) (Nat.le_of_lt hu)

theorem AgreeToken.elim_none {x y : Option (List Char)} {f g : List Char → Except Failure (α × List Char)}
    {a b : Except Failure (α × List Char)} : AgreeToken s t x y → Agree s t a b →
    (∀ r u, Relaid r u → r.length < s.length → u.length < t.length → Agree r u (f r) (g u)) →
    Agree s t (match x with | none => a | some r => f r) (match y with | none => b | some u => g u) := by
  rintro (⟨rfl, rfl⟩ | ⟨r, u, rfl, rfl, hru, hr, hu⟩) hnone hsome
  · exact hnone
  · exact (hsome r u hru hr hu).mono (Nat.le_of_lt hr) (Nat.le_of_lt hu)

theorem AgreeToken.isSome_eq {x y : Option (List Char)} (h : AgreeToken s t x y) : x.isSome = y.isSome := by
  rcases h with ⟨rfl, rfl⟩ | ⟨r, u, rfl, rfl, -⟩ <;> rfl

theorem AgreeToken.getD {x y : Option (List Char)} (h : AgreeToken s t x y) (hst : Relaid s t) :
    Relaid (x.getD s) (y.getD t) ∧ (x.getD s).length ≤ s.length ∧ (y.getD t).length ≤ t.length := by
  rcases h with ⟨rfl, rfl⟩ | ⟨r, u, rfl, rfl, hru, hr, hu⟩
  · exact ⟨hst, Nat.le_refl _, Nat.le_refl _⟩
  · exact ⟨hru, Nat.le_of_lt hr, Nat.le_of_lt hu⟩

theorem AgreeToken.or {x y x' y' : Option (List Char)} (h : AgreeToken s t x y) (hother : AgreeToken s t x' y') :
    AgreeToken s t (x.or x') (y.or y') := by
  rcases h with ⟨rfl, rfl⟩ | ⟨r, u, rfl, rfl, hru⟩
  · exact hother
  · exact .inr ⟨r, u, rfl, rfl, hru⟩

theorem AgreeChoice.or {x y x' y' : Option (α × List Char)} (h : AgreeChoice s t x y)
    (hother : AgreeChoice s t x' y') : AgreeChoice s t (x.or x') (y.or y') := by
  rcases h with ⟨rfl, rfl⟩ | ⟨a, r, u, rfl, rfl, hru⟩
  · exact hother
  · exact .inr ⟨a, r, u, rfl, rfl, hru⟩

theorem AgreeToken.map {x y : Option (List Char)} (h : AgreeToken s t x y) (a : α) :
    AgreeChoice s t (x.map fun s => (a, s)) (y.map fun s => (a, s)) := by
  rcases h with ⟨rfl, rfl⟩ | ⟨r, u, rfl, rfl, hru⟩
  · exact .inl ⟨rfl, rfl⟩
  · exact .inr ⟨a, r, u, rfl, rfl, hru⟩

/-! ## Tokens -/

theorem isSolid_of_isNamePart {c : Char} (h : isNamePart c = true) : IsSolid c where
  blank := isBlank_of_isNamePart h
  slash := by
    rintro rfl
    revert h
    decide
  quote := by
    rintro (rfl | rfl) <;> revert h <;> decide

theorem isSolid_of_isNumberPart {c : Char} (h : isNumberPart c = true) : IsSolid c := by
  simp only [isNumberPart, Bool.or_eq_true, beq_iff_eq] at h
  rcases h with ((h | rfl) | rfl) | rfl
  · exact isSolid_of_isNamePart (isNamePart_of_isDigit h)
  all_goals decide

theorem Relaid.skip (h : Relaid s t) : Relaid (skip s) (Parser.skip t) := h.front.relaid

theorem isAt_eq (h : Relaid s t) (c : Char) : isAt c s = isAt c t := by
  rw [isAt, isAt, h.front.head?]

theorem isAtDigit_eq (h : Relaid s t) : isAtDigit s = isAtDigit t := by
  rw [isAtDigit, isAtDigit, h.front.head?]

theorem isAtName_eq (h : Relaid s t) : isAtName s = isAtName t := by
  rw [isAtName, isAtName, h.front.head?]

theorem agreeToken_some {w : List Char} (hs : skip s = w ++ r) (ht : skip t = w ++ u) (hw : w ≠ [])
    (h : Relaid r u) : AgreeToken s t (some r) (some u) := by
  have hpos := List.length_pos_iff.mpr hw
  have hle := length_skip_le s
  have hle' := length_skip_le t
  rw [hs, List.length_append] at hle
  rw [ht, List.length_append] at hle'
  exact .inr ⟨r, u, rfl, rfl, h, by omega, by omega⟩

/-- The first character of a token is found in both texts, also the slash. -/
theorem SameFront.of_cons {c : Char} (h : SameFront (c :: s) t) (hc : ¬ IsQuote c) :
    ∃ u, t = c :: u ∧ Relaid s u := by
  generalize hv : c :: s = v at h
  cases h with
  | same => exact ⟨s, hv.symm, .same s⟩
  | char _ _ h =>
    obtain ⟨rfl, rfl⟩ := List.cons.inj hv
    exact ⟨_, rfl, h⟩
  | string hquote =>
    obtain ⟨rfl, -⟩ := List.cons.inj hv
    exact absurd hquote hc

theorem blindToken_char (c : Char) (hc : ¬ IsQuote c) : BlindToken (char? c) := by
  intro s t h
  have hfront := h.front
  have hat := isAt_eq h c
  cases hs : char? c s with
  | none =>
    rw [char?_eq_none_iff, hat, ← char?_eq_none_iff] at hs
    exact .inl ⟨rfl, hs⟩
  | some r =>
    have hskip := char?_eq_some_iff.mp hs
    rw [hskip] at hfront
    obtain ⟨u, hu, hru⟩ := hfront.of_cons hc
    rw [char?_eq_some_iff.mpr hu]
    exact agreeToken_some (w := [c]) hskip hu (List.cons_ne_nil _ _) hru

theorem Relaid.append {w : List Char} (hw : ∀ c ∈ w, IsSolid c) :
    Relaid s t → ((∀ r, s = w ++ r → ∃ u, t = w ++ u ∧ Relaid r u) ∧ ∀ u, t = w ++ u → ∃ r, s = w ++ r) := by
  induction w generalizing s t with
  | nil =>
    refine fun h => ⟨?_, fun u _ => ⟨s, rfl⟩⟩
    rintro r rfl
    exact ⟨t, rfl, h⟩
  | cons c w ih =>
    rw [List.forall_mem_cons] at hw
    intro h
    constructor
    · rintro r rfl
      obtain ⟨u, rfl, hu⟩ := Relaid.of_cons h hw.1
      obtain ⟨v, rfl, hv⟩ := (ih hw.2 hu).1 r rfl
      exact ⟨v, rfl, hv⟩
    · rintro u rfl
      obtain ⟨r, rfl, hr⟩ := h.of_cons_right hw.1
      obtain ⟨v, rfl⟩ := (ih hw.2 hr).2 u rfl
      exact ⟨v, rfl⟩

/-- A text of solid characters. -/
def IsSolidText (w : String) : Prop := w.toList ≠ [] ∧ ∀ c ∈ w.toList, IsSolid c

instance (w : String) : Decidable (IsSolidText w) :=
  letI := List.decidableBAll IsSolid w.toList
  inferInstanceAs (Decidable (w.toList ≠ [] ∧ ∀ c ∈ w.toList, IsSolid c))

theorem blindToken_text (w : String) (hw : IsSolidText w) : BlindToken (text? w) := by
  intro s t h
  obtain ⟨hforward, hback⟩ := Relaid.append hw.2 h.skip
  cases hs : text? w s with
  | none =>
    cases ht : text? w t with
    | none => exact .inl ⟨rfl, rfl⟩
    | some u =>
      obtain ⟨r, hr⟩ := hback u (text?_eq_some_iff.mp ht)
      rw [text?_eq_some_iff.mpr hr] at hs
      cases hs
  | some r =>
    have hskip := text?_eq_some_iff.mp hs
    obtain ⟨u, hu, hru⟩ := hforward r hskip
    rw [text?_eq_some_iff.mpr hu]
    exact agreeToken_some hskip hu hw.1 hru

theorem blindToken_keyword (w : String) (hw : w.toList ≠ []) : BlindToken (keyword? w) := by
  intro s t h
  obtain ⟨htake, hdrop⟩ := h.skip.takeWhile fun _ => isSolid_of_isNamePart
  rw [keyword?_eq, keyword?_eq, ← htake]
  split
  · next hsame =>
    refine agreeToken_some List.takeWhile_append_dropWhile.symm ?_ ?_ hdrop
    · exact htake ▸ List.takeWhile_append_dropWhile.symm
    · intro hempty
      rw [hempty] at hsame
      exact hw (List.length_eq_zero_iff.mp (length_eq_of_sameLetters hsame).symm)
  · exact .inl ⟨rfl, rfl⟩

/-! ## Choices between tokens -/

theorem blindChoice_keywords {words : List (String × α)} (hwords : ∀ w ∈ words, w.1.toList ≠ []) :
    BlindChoice (keywordChoice? words) := by
  induction words with
  | nil => exact fun s t _ => .inl ⟨rfl, rfl⟩
  | cons w words ih =>
    rw [List.forall_mem_cons] at hwords
    intro s t hst
    rw [keywordChoice?, keywordChoice?]
    rcases blindToken_keyword w.1 hwords.1 hst with ⟨hs, ht⟩ | ⟨r, u, hs, ht, hru⟩
    · rw [hs, ht]
      exact ih hwords.2 hst
    · rw [hs, ht]
      exact .inr ⟨w.2, r, u, rfl, rfl, hru⟩

theorem blindChoice_texts {texts : List (String × α)}
    (htexts : ∀ w ∈ texts, IsSolidText w.1) : BlindChoice (choice? texts) := by
  induction texts with
  | nil => exact fun s t _ => .inl ⟨rfl, rfl⟩
  | cons w texts ih =>
    rw [List.forall_mem_cons] at htexts
    intro s t hst
    rw [choice?, choice?]
    rcases blindToken_text w.1 htexts.1 hst with ⟨hs, ht⟩ | ⟨r, u, hs, ht, hru⟩
    · rw [hs, ht]
      exact ih htexts.2 hst
    · rw [hs, ht]
      exact .inr ⟨w.2, r, u, rfl, rfl, hru⟩

/-! ## Tokens that have to come next -/

/-- The token is missing in both texts, or it comes next in both. -/
def AgreeExpect (s t : List Char) (x y : Except Failure (List Char)) : Prop :=
  (∃ e f, x = .error e ∧ y = .error f) ∨
    ∃ r u, x = .ok r ∧ y = .ok u ∧ Relaid r u ∧ r.length < s.length ∧ u.length < t.length

theorem AgreeExpect.bind_strictly {x y : Except Failure (List Char)}
    {f g : List Char → Except Failure (α × List Char)} (h : AgreeExpect s t x y)
    (hnext : ∀ r u, Relaid r u → r.length < s.length → u.length < t.length → Agree r u (f r) (g u)) :
    AgreeStrictly s t (x >>= f) (y >>= g) := by
  rcases h with ⟨e, e', rfl, rfl⟩ | ⟨r, u, rfl, rfl, hru, hr, hu⟩
  · exact .inl ⟨e, e', rfl, rfl⟩
  · exact (hnext r u hru hr hu).strictly hr hu

theorem AgreeExpect.bind {x y : Except Failure (List Char)} {f g : List Char → Except Failure (α × List Char)}
    (h : AgreeExpect s t x y)
    (hnext : ∀ r u, Relaid r u → r.length < s.length → u.length < t.length → Agree r u (f r) (g u)) :
    Agree s t (x >>= f) (y >>= g) := (h.bind_strictly hnext).agree

theorem agree_expectChar (c : Char) (hc : ¬ IsQuote c) (h : Relaid s t) :
    AgreeExpect s t (expectChar c s) (expectChar c t) := by
  rw [expectChar, expectChar]
  rcases blindToken_char c hc h with ⟨hs, ht⟩ | ⟨r, u, hs, ht, hru⟩
  · rw [hs, ht]
    exact .inl ⟨_, _, rfl, rfl⟩
  · rw [hs, ht]
    exact .inr ⟨r, u, rfl, rfl, hru⟩

theorem agree_expectKeyword (w : String) (hw : w.toList ≠ []) (h : Relaid s t) :
    AgreeExpect s t (expectKeyword w s) (expectKeyword w t) := by
  rw [expectKeyword, expectKeyword]
  rcases blindToken_keyword w hw h with ⟨hs, ht⟩ | ⟨r, u, hs, ht, hru⟩
  · rw [hs, ht]
    exact .inl ⟨_, _, rfl, rfl⟩
  · rw [hs, ht]
    exact .inr ⟨r, u, rfl, rfl, hru⟩

/-! ## Names, numbers and strings -/

theorem length_dropWhile_skip_le (p : Char → Bool) (s : List Char) : ((skip s).dropWhile p).length ≤ s.length :=
  Nat.le_trans (List.length_dropWhile_le p (skip s)) (length_skip_le s)

theorem agree_identifier (h : Relaid s t) : Agree s t (identifier s) (identifier t) := by
  have hat := isAtName_eq h
  cases hs : isAtName s with
  | true =>
    obtain ⟨htake, hdrop⟩ := h.skip.takeWhile fun _ => isSolid_of_isNamePart
    rw [identifier_eq hs, identifier_eq (hat ▸ hs), htake]
    exact agree_ok_of hdrop (length_dropWhile_skip_le _ s) (length_dropWhile_skip_le _ t)
  | false =>
    rw [identifier_eq_fail hs, identifier_eq_fail (hat ▸ hs)]
    exact agree_fail

theorem agree_integer (h : Relaid s t) : Agree s t (integer s) (integer t) := by
  obtain ⟨htake, hdrop⟩ := h.skip.takeWhile fun _ hc => isSolid_of_isNamePart (isNamePart_of_isDigit hc)
  rw [integer, integer, Number.spanDigits, Number.spanDigits, List.span_eq_takeWhile_dropWhile,
    List.span_eq_takeWhile_dropWhile, htake]
  dsimp only
  split
  · exact agree_fail
  · cases Number.readWord? ((skip t).takeWhile Char.isDigit) with
    | some n => exact agree_ok_of hdrop (length_dropWhile_skip_le _ s) (length_dropWhile_skip_le _ t)
    | none => exact agree_fail

/-- The text of a number is the same in both texts. -/
theorem exists_numberText (h : Relaid s t) :
    ∃ w r u, numberText s = (w, r) ∧ numberText t = (w, u) ∧ Relaid r u ∧ r.length ≤ s.length ∧
      u.length ≤ t.length := by
  have hat := isAt_eq h '-'
  cases hs : isAt '-' s with
  | true =>
    have hfront := h.front
    obtain ⟨r, hr⟩ := List.head?_eq_some_iff.mp (beq_iff_eq.mp hs)
    rw [hr] at hfront
    obtain ⟨u, hu, hru⟩ := hfront.of_cons (by decide)
    obtain ⟨htake, hdrop⟩ := hru.takeWhile fun _ => isSolid_of_isNumberPart
    have hle := length_skip_le s
    have hle' := length_skip_le t
    rw [hr, List.length_cons] at hle
    rw [hu, List.length_cons] at hle'
    have hrest := List.length_dropWhile_le isNumberPart r
    have hrest' := List.length_dropWhile_le isNumberPart u
    refine ⟨r.takeWhile isNumberPart |> ('-' :: ·), r.dropWhile isNumberPart, u.dropWhile isNumberPart,
      numberText_minus hr, ?_, hdrop, by omega, by omega⟩
    rw [htake]
    exact numberText_minus hu
  | false =>
    obtain ⟨htake, hdrop⟩ := h.skip.takeWhile fun _ => isSolid_of_isNumberPart
    refine ⟨_, _, _, numberText_digits hs, ?_, hdrop, length_dropWhile_skip_le _ s,
      length_dropWhile_skip_le _ t⟩
    rw [htake]
    exact numberText_digits (hat ▸ hs)

theorem agree_number (h : Relaid s t) : Agree s t (number s) (number t) := by
  obtain ⟨w, r, u, hs, ht, hru, hr, hu⟩ := exists_numberText h
  rw [number, number, hs, ht]
  dsimp only
  generalize (if (w.any fun c => c == '.' || c == 'e' || c == 'E') = true then
    (Number.readFloat? w).map Value.real else (Number.readInt64? w).map Value.integer) = value
  cases value with
  | some v => exact agree_ok_of hru hr hu
  | none => exact agree_fail

/-- What stands between two quotes is read in the same way whatever follows. -/
theorem exists_stringBody {quote : Char} {w : List Char} (hquote : IsQuote quote) (hw : IsQuotable quote w) :
    ∃ cs, ∀ r, stringBody quote (w ++ quote :: r) = .ok (cs, r) := by
  induction hw with
  | nil =>
    refine ⟨[], fun r => ?_⟩
    rw [List.nil_append, stringBody.eq_def]
    exact if_pos rfl
  | @char c w hne hescape _ ih =>
    obtain ⟨cs, hcs⟩ := ih
    refine ⟨c :: cs, fun r => ?_⟩
    rw [List.cons_append, stringBody.eq_def]
    dsimp only
    rw [if_neg hne, if_neg hescape, hcs]
    rfl
  | @escape c w _ ih =>
    obtain ⟨cs, hcs⟩ := ih
    refine ⟨escaped c :: cs, fun r => ?_⟩
    have hne : '\\' ≠ quote := by rcases hquote with rfl | rfl <;> decide
    rw [List.cons_append, List.cons_append, stringBody.eq_def]
    dsimp only
    rw [if_neg hne, if_pos rfl, hcs]
    rfl

theorem length_le_of_stringBody {quote : Char} {cs : List Char} (h : stringBody quote s = .ok (cs, r)) :
    r.length ≤ s.length := by
  fun_induction stringBody quote s generalizing cs with
  | case1 => cases h
  | case2 =>
    obtain ⟨-, rfl⟩ := Prod.mk.inj (Except.ok.inj h)
    exact Nat.le_succ _
  | case3 => cases h
  | case4 d rest _ ih =>
    cases hread : stringBody quote rest with
    | error e =>
      rw [hread] at h
      cases h
    | ok one =>
      rw [hread] at h
      obtain ⟨-, rfl⟩ := Prod.mk.inj (Except.ok.inj h)
      exact Nat.le_trans (ih hread) (Nat.le_add_right _ 2)
  | case5 c rest _ _ ih =>
    cases hread : stringBody quote rest with
    | error e =>
      rw [hread] at h
      cases h
    | ok one =>
      rw [hread] at h
      obtain ⟨-, rfl⟩ := Prod.mk.inj (Except.ok.inj h)
      exact Nat.le_succ_of_le (ih hread)

theorem agree_string (h : Relaid s t) : AgreeElement s t (string? s) (string? t) := by
  have hle := length_skip_le s
  have hle' := length_skip_le t
  have hfront := h.front
  rw [string?, string?]
  generalize Parser.skip s = v, Parser.skip t = w at hfront hle hle'
  cases hfront with
  | same =>
    cases v with
    | nil => exact .inl ⟨rfl, rfl⟩
    | cons c r =>
      dsimp only
      split
      · refine .inr ⟨_, _, rfl, rfl, Agree.strictly (r := r) (u := r) ?_ hle hle'⟩
        cases hread : stringBody c r with
        | error e => exact .inl ⟨_, _, rfl, rfl⟩
        | ok one =>
          have hlength := length_le_of_stringBody hread
          exact agree_ok_of (.same _) hlength hlength
      · exact .inl ⟨rfl, rfl⟩
  | char hquote _ _ =>
    rw [IsQuote] at hquote
    exact .inl ⟨if_neg hquote, if_neg hquote⟩
  | @string quote w s' t' hquote hw h =>
    obtain ⟨cs, hcs⟩ := exists_stringBody hquote hw
    rw [IsQuote] at hquote
    dsimp only
    rw [if_pos hquote, if_pos hquote, hcs, hcs]
    have hrest (v : List Char) : v.length ≤ (w ++ quote :: v).length := by
      rw [List.length_append, List.length_cons]
      omega
    exact .inr ⟨_, _, rfl, rfl, (agree_ok_of h (hrest s') (hrest t')).strictly hle hle'⟩

/-! ## Repetition -/

/-- Parsers with a bound agree on texts that are shorter than it if they do in each round. A text is not
shorter than zero, so neither parser uses up its rounds. -/
theorem blind_of_round {p q : Nat → Parse α} (hround : ∀ n m, n < k → m < l → Blind n m (p n) (q m) →
    Blind (n + 1) (m + 1) (p (n + 1)) (q (m + 1))) : ∀ n m, n ≤ k → m ≤ l → Blind n m (p n) (q m) := by
  intro n
  induction n with
  | zero => exact fun m _ _ s t _ hs _ => absurd hs (Nat.not_lt_zero _)
  | succ n ih =>
    intro m hn hm
    cases m with
    | zero => exact fun s t _ _ ht => absurd ht (Nat.not_lt_zero _)
    | succ m => exact hround n m hn hm (ih m (Nat.le_of_lt hn) (Nat.le_of_lt hm))

theorem blind_of_depth {p : Nat → Parse α} (hdepth : ∀ n m, Blind n m (p n) (p m) →
    Blind (n + 1) (m + 1) (p (n + 1)) (p (m + 1))) (h : Relaid s t) :
    Agree s t (p (s.length + 1) s) (p (t.length + 1) t) :=
  blind_of_round (fun n m _ _ => hdepth n m) _ _ (Nat.le_refl _) (Nat.le_refl _) h (Nat.lt_succ_self _)
    (Nat.lt_succ_self _)

theorem exists_round {n m : Nat} (hs : s.length < n + 1) (ht : t.length < m + 1) (hr : r.length < s.length)
    (hu : u.length < t.length) :
    ∃ n' m', n = n' + 1 ∧ m = m' + 1 ∧ r.length < n' + 1 ∧ u.length < m' + 1 :=
  ⟨n - 1, m - 1, by omega, by omega, by omega, by omega⟩

/-- Items are read for as long as there are commas. -/
theorem blind_itemsUntil (c : Char) {item item' : Parse α} (hitem : Blind k l item item') :
    Blind k l (itemsUntil c item k) (itemsUntil c item' l) := by
  refine blind_of_round (fun n m hn hm ih s t h hs ht => ?_) k l (Nat.le_refl _) (Nat.le_refl _)
  rw [itemsUntil, itemsUntil, isAt_eq h]
  split
  · exact agree_ok h
  · refine (hitem h (by omega) (by omega)).bind fun a r u hru hr hu => ?_
    refine (blindToken_char ',' (by decide) hru).elim_none (agree_ok hru) fun r' u' hru' hr' hu' => ?_
    exact (ih hru' (by omega) (by omega)).bind fun as _ _ h _ _ => agree_ok h

theorem agree_itemsUntil (c : Char) {item item' : Parse α} (hitem : Blind k l item item') (h : Relaid s t)
    (hs : s.length < k) (ht : t.length < l) :
    Agree s t (itemsUntil c item (s.length + 1) s) (itemsUntil c item' (t.length + 1) t) :=
  blind_itemsUntil c (hitem.mono hs ht) h (Nat.lt_succ_self _) (Nat.lt_succ_self _)

theorem more_of_none {separator : List Char → Option (List Char)} {item : Parse α} (h : separator s = none)
    (n : Nat) : more separator item n s = .ok ([], s) := by
  cases n with
  | zero => rfl
  | succ n => rw [more, h]

theorem blind_more {separator : List Char → Option (List Char)} {item item' : Parse α}
    (hseparator : BlindToken separator) (hitem : Blind k l item item') : ∀ n m, n ≤ k → m ≤ l →
      Blind (n + 1) (m + 1) (more separator item n) (more separator item' m) := by
  intro n
  induction n using Nat.strongRecOn with
  | ind n ih =>
    intro m hn hm s t h hs ht
    rcases hseparator h with ⟨hs', ht'⟩ | ⟨r, u, hs', ht', hru, hlt, hlt'⟩
    · rw [more_of_none hs', more_of_none ht']
      exact agree_ok h
    · obtain ⟨n, m, rfl, rfl, hr, hu⟩ := exists_round hs ht hlt hlt'
      simp only [more, hs', ht']
      refine Agree.mono ?_ (Nat.le_of_lt hlt) (Nat.le_of_lt hlt')
      refine (hitem hru (by omega) (by omega)).bind fun a r u hru hr hu => ?_
      have hrest := ih n (Nat.lt_succ_self _) m (by omega) (by omega) hru (by omega) (by omega)
      exact hrest.bind fun as _ _ h _ _ => agree_ok h

theorem blind_separated {separator : List Char → Option (List Char)} {item item' : Parse α}
    (hseparator : BlindToken separator) (hitem : Blind k l item item') :
    Blind k l (separated separator item) (separated separator item') := by
  intro s t h hs ht
  rw [separated, separated]
  refine (hitem h hs ht).bind fun a r u hru hr hu => ?_
  have hmore := blind_more hseparator hitem r.length u.length (by omega) (by omega) hru (Nat.lt_succ_self _)
    (Nat.lt_succ_self _)
  exact hmore.bind fun as _ _ h _ _ => agree_ok h

end GraphPatterns.Parser
