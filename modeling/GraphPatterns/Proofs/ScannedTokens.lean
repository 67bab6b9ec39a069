/-
Tokens at byte positions. A token is passed by its width, which is the byte count of the characters it
takes; a keyword is as wide as the word that is compared with it, since only letters of one byte have two
cases.
-/
import GraphPatterns.Proofs.Following

namespace GraphPatterns

open GraphPatterns.Parser (skip)

/-! ## Widths of words -/

theorem utf8Size_toLower (c : Char) : c.toLower.utf8Size = c.utf8Size := by
  by_cases h : c.val ≥ 'A'.val ∧ c.val ≤ 'Z'.val
  · have hlower : c.toLower.val = c.val + ('a'.val - 'A'.val) := congrArg Char.val (dif_pos h)
    have hle : c.val.toNat ≤ 90 := UInt32.le_iff_toNat_le.mp h.2
    have hge : 65 ≤ c.val.toNat := UInt32.le_iff_toNat_le.mp h.1
    have hone (d : Char) (hd : d.val.toNat ≤ 127) : d.utf8Size = 1 :=
      Char.utf8Size_eq_one_iff.mpr (UInt32.le_iff_toNat_le.mpr hd)
    have hsum : (c.val + ('a'.val - 'A'.val)).toNat = c.val.toNat + 32 := by
      rw [UInt32.toNat_add, show ('a'.val - 'A'.val).toNat = 32 from rfl]
      omega
    rw [hone _ (by rw [hlower, hsum]; omega), hone _ (by omega)]
  · exact congrArg Char.utf8Size (dif_neg h)

theorem byteCount_map_toLower (s : List Char) : byteCount (s.map Char.toLower) = byteCount s := by
  induction s with
  | nil => rfl
  | cons c s ih => rw [List.map_cons, byteCount_cons, byteCount_cons, utf8Size_toLower, ih]

theorem byteCount_eq_of_sameLetters {s t : List Char} (h : Parser.sameLetters s t = true) :
    byteCount s = byteCount t := by
  rw [← byteCount_map_toLower s, beq_iff_eq.mp h, byteCount_map_toLower]

namespace Scan

variable {α β : Type} {source : Source} {c : TextCursor} {s r : List Char} {k t : String} {d : Char}

/-! ## Single tokens -/

/-- A token that is seen where it stands, and is as wide as what it takes. -/
theorem finds_tryToken {isThere : Scan Bool} {width : Nat} {token : List Char → Option (List Char)}
    (hpatient : source.IsPatient)
    (hthere : ∀ c s, c.IsAt source.text (skip s) →
      (isThere source c).Reaches source.text c.position (token s).isSome (skip s))
    (hwidth : ∀ s r, token s = some r → ∃ t, t ≠ [] ∧ skip s = t ++ r ∧ byteCount t = width) :
    Finds source (tryToken isThere width) token := by
  constructor
  · intro c s r hc htoken
    obtain ⟨t, ht, hskip, hcount⟩ := hwidth s r htoken
    refine ⟨ends_passing (skipBlanks_bind hpatient hc fun c hc => ?_),
      Parser.length_skip_lt_of_append hskip ht⟩
    refine reaches_bind (hthere c s hc) fun c hc => ?_
    rw [htoken, Option.isSome_some, if_pos rfl]
    exact reaches_bind (reaches_advance (hskip ▸ hc) hcount) fun c hc => reaches_pure hc true
  · intro c s hc htoken
    refine ends_passing (skipBlanks_bind hpatient hc fun c hc => ?_)
    refine reaches_bind (hthere c s hc) fun c hc => ?_
    rw [htoken, Option.isSome_none, if_neg Bool.false_ne_true]
    exact reaches_pure hc false

theorem finds_tryChar (hpatient : source.IsPatient) (d : Char) : Finds source (tryChar d) (Parser.char? d) := by
  refine finds_tryToken hpatient (fun c s hc => ?_) fun s r h =>
    ⟨[d], List.cons_ne_nil _ _, Parser.char?_eq_some_iff.mp h, by simp⟩
  have hthere : (Parser.char? d s).isSome = ((skip s).head? == some d) := by
    rw [Bool.eq_iff_iff, Option.isSome_iff_exists, beq_iff_eq, List.head?_eq_some_iff]
    exact exists_congr fun r => Parser.char?_eq_some_iff
  rw [hthere]
  exact reaches_isNext hc d

theorem finds_tryText (hpatient : source.IsPatient) (ht : t.toList ≠ []) :
    Finds source (tryText t) (Parser.text? t) := by
  refine finds_tryToken hpatient (fun c s hc => ?_) fun s r h => ⟨_, ht, Parser.text?_eq_some_iff.mp h, rfl⟩
  rw [Parser.isSome_text?]
  exact reaches_isTextNext hc t

theorem finds_tryKeyword (hpatient : source.IsPatient) (hk : k.toList ≠ []) :
    Finds source (tryKeyword k) (Parser.keyword? k) := by
  refine finds_tryToken hpatient (fun c s hc => ?_) fun s r h => ?_
  · have hthere : (Parser.keyword? k s).isSome =
        Parser.sameLetters ((skip s).takeWhile Parser.isNamePart) k.toList := by
      rw [Parser.keyword?_eq]
      split <;> simp [*]
    rw [hthere]
    exact reaches_isKeywordNext hc k
  · obtain ⟨w, hskip, -, hsame⟩ := Parser.of_keyword?_eq_some h
    refine ⟨w, ?_, hskip, byteCount_eq_of_sameLetters hsame⟩
    rintro rfl
    exact hk (List.length_eq_zero_iff.mp (Parser.length_eq_of_sameLetters hsame).symm)

theorem finds_tryEither {isToken isOther : Scan Bool} {token other : List Char → Option (List Char)}
    (h : Finds source isToken token) (hother : Finds source isOther other) :
    Finds source (tryEither isToken isOther) fun s => (token s).or (other s) := by
  constructor
  · intro c s r hc hr
    rcases Option.or_eq_some_iff.mp hr with htoken | ⟨htoken, hr⟩
    · obtain ⟨hfound, hlt⟩ := h.found hc htoken
      exact ⟨reaches_bind hfound fun c hc => reaches_pure hc true, hlt⟩
    · exact ⟨reaches_bind (h.absent hc htoken) fun c hc => (hother.found hc.isNear_skip hr).1,
        (hother.found hc hr).2⟩
  · intro c s hc hr
    obtain ⟨htoken, hr⟩ := Option.or_eq_none_iff.mp hr
    have hskip := Parser.skip_skip s
    exact reaches_bind (h.absent hc htoken) fun c hc => hother.absent hc.isNear_skip hr

/-! ## Tokens that have to come next -/

theorem ends_expectChar (hpatient : source.IsPatient) (hc : c.IsNear source.text s) (d : Char) :
    (expectChar d source c).Ends source.text c.position
      (fun _ r => Parser.expectChar d s = .ok r ∧ (skip r).length < (skip s).length)
      fun e => Parser.expectChar d s = .error e := by
  refine ends_passing ((finds_tryChar hpatient d).ite hc (fun r c htoken hc hlt => ?_) fun c htoken hc => ?_)
  · exact ends_pure hc ⟨by rw [Parser.expectChar, htoken], hlt⟩
  · refine reaches_bind (reaches_peekChar hc) fun c hc => ?_
    exact ⟨skip s, hc, by rw [Parser.expectChar, htoken]; rfl⟩

theorem ends_expectKeyword (hpatient : source.IsPatient) (hc : c.IsNear source.text s) (hk : k.toList ≠ []) :
    (expectKeyword k source c).Ends source.text c.position
      (fun _ r => Parser.expectKeyword k s = .ok r ∧ (skip r).length < (skip s).length)
      fun e => Parser.expectKeyword k s = .error e := by
  refine ends_passing ((finds_tryKeyword hpatient hk).ite hc (fun r c htoken hc hlt => ?_) fun c htoken hc => ?_)
  · exact ends_pure hc ⟨by rw [Parser.expectKeyword, htoken], hlt⟩
  · exact ⟨skip s, hc, by rw [Parser.expectKeyword, htoken]; rfl⟩

theorem advances_expect {p : Scan Unit} {next : Unit → Scan α} {rest : Except Parser.Failure (List Char)}
    {f : List Char → Except Parser.Failure (α × List Char)}
    (h : (p source c).Ends source.text c.position
      (fun _ r => rest = .ok r ∧ (skip r).length < (skip s).length) fun e => rest = .error e)
    (hnext : ∀ r c', c'.IsNear source.text r → (skip r).length < (skip s).length →
      (next () source c').Follows source.text c'.position r (f r)) :
    ((p >>= next) source c).Advances source.text c.position s (rest >>= f) := by
  refine ends_bind h ?_ ?_
  · rintro _ r c' ⟨rfl, hlt⟩ hc'
    exact (hnext r c' hc'.isNear hlt).advances hlt
  · rintro e rfl
    rfl

theorem follows_expect {p : Scan Unit} {next : Unit → Scan α} {rest : Except Parser.Failure (List Char)}
    {f : List Char → Except Parser.Failure (α × List Char)}
    (h : (p source c).Ends source.text c.position
      (fun _ r => rest = .ok r ∧ (skip r).length < (skip s).length) fun e => rest = .error e)
    (hnext : ∀ r c', c'.IsNear source.text r → (skip r).length < (skip s).length →
      (next () source c').Follows source.text c'.position r (f r)) :
    ((p >>= next) source c).Follows source.text c.position s (rest >>= f) := (advances_expect h hnext).follows

/-! ## Choices between tokens -/

theorem FindsOne.congr {p : Scan (Option α)} {choice choice' : List Char → Option (α × List Char)}
    (h : FindsOne source p choice) (heq : ∀ s, choice' s = choice s) : FindsOne source p choice' := by
  obtain rfl : choice' = choice := funext heq
  exact h

theorem findsOne_single {isToken : Scan Bool} {token : List Char → Option (List Char)} {a : α}
    (h : Finds source isToken token) :
    FindsOne source (firstOf [(isToken, a)]) fun s => (token s).map fun r => (a, r) := by
  constructor
  · intro c s b r hc hb
    obtain ⟨r, htoken, ⟨⟩⟩ := Option.map_eq_some_iff.mp hb
    obtain ⟨hfound, hlt⟩ := h.found hc htoken
    exact ⟨reaches_bind hfound fun c hc => reaches_pure hc (some a), hlt⟩
  · intro c s hc hnone
    exact reaches_bind (h.absent hc (Option.map_eq_none_iff.mp hnone)) fun c hc => reaches_pure hc none

theorem findsOne_cons {isToken : Scan Bool} {token : List Char → Option (List Char)} {a : α}
    {more : List (Scan Bool × α)} {choice : List Char → Option (α × List Char)}
    (h : Finds source isToken token) (hmore : FindsOne source (firstOf more) choice) :
    FindsOne source (firstOf ((isToken, a) :: more)) fun s =>
      ((token s).map fun r => (a, r)).or (choice s) := by
  constructor
  · intro c s b r hc hb
    rcases Option.or_eq_some_iff.mp hb with hb | ⟨hnone, hb⟩
    · obtain ⟨r, htoken, ⟨⟩⟩ := Option.map_eq_some_iff.mp hb
      obtain ⟨hfound, hlt⟩ := h.found hc htoken
      exact ⟨reaches_bind hfound fun c hc => reaches_pure hc (some a), hlt⟩
    · have habsent := h.absent hc (Option.map_eq_none_iff.mp hnone)
      exact ⟨reaches_bind habsent fun c hc => (hmore.found hc.isNear_skip hb).1, (hmore.found hc hb).2⟩
  · intro c s hc hnone
    obtain ⟨htoken, hnone⟩ := Option.or_eq_none_iff.mp hnone
    exact reaches_bind (h.absent hc (Option.map_eq_none_iff.mp htoken)) fun c hc =>
      hmore.absent hc.isNear_skip hnone

theorem FindsOne.passing {p : Scan (Option α)} {choice : List Char → Option (α × List Char)}
    (h : FindsOne source p choice) : FindsOne source (passing p) choice :=
  ⟨fun hc hchoice => (h.found hc hchoice).imp_left ends_passing,
    fun hc hchoice => ends_passing (h.absent hc hchoice)⟩

/-! ## Names, numbers and strings -/

theorem reaches_skipWhile {p : Char → Bool} {width : Char → Nat} (hpatient : source.IsPatient)
    (hwidth : ∀ c, p c = true → c.utf8Size = width c) (h : c.IsAt source.text s) :
    (skipWhile p width source c).Reaches source.text c.position () (s.dropWhile p) := by
  refine ends_loop List.length (fun _ t => t.dropWhile p = s.dropWhile p) hpatient (fun _ => Nat.le_refl _) ?_ h rfl
  intro _ t c ht hc
  refine reaches_bind (reaches_peekChar hc) fun c hc => ?_
  cases t with
  | nil => exact ends_pure hc ⟨rfl, ht⟩
  | cons d t =>
    dsimp only [List.head?_cons]
    cases hd : p d with
    | true =>
      rw [List.dropWhile_cons_of_pos hd] at ht
      refine reaches_bind (reaches_advance (t := [d]) hc (by simp [hwidth d hd])) fun c hc => ?_
      exact ends_pure hc ⟨Nat.lt_add_one _, ht⟩
    | false =>
      rw [List.dropWhile_cons_of_neg (by simp [hd])] at ht
      exact ends_pure hc ⟨rfl, ht⟩

theorem utf8Size_of_isDigit (h : d.isDigit = true) : d.utf8Size = 1 := by
  rw [Char.isDigit, Bool.and_eq_true, decide_eq_true_eq, decide_eq_true_eq] at h
  exact Char.utf8Size_eq_one_iff.mpr (UInt32.le_trans h.2 (by decide))

theorem utf8Size_of_isNumberPart (h : Parser.isNumberPart d = true) : d.utf8Size = 1 := by
  simp only [Parser.isNumberPart, Bool.or_eq_true, beq_iff_eq] at h
  rcases h with ((h | rfl) | rfl) | rfl
  · exact utf8Size_of_isDigit h
  all_goals rfl

theorem follows_identifier (hpatient : source.IsPatient) (hc : c.IsNear source.text s) :
    (identifier source c).Follows source.text c.position s (Parser.identifier s) := by
  refine follows_passing (skipBlanks_bind hpatient hc fun c hstart => ?_)
  refine reaches_bind (reaches_position hstart) fun c' hc => ?_
  refine reaches_bind (reaches_peekChar hc) fun c' hc => ?_
  rw [Parser.identifier]
  cases hskip : skip s with
  | nil =>
    rw [hskip] at hc
    exact ⟨[], hc, rfl⟩
  | cons d r =>
    rw [hskip] at hc hstart
    dsimp only [List.head?_cons]
    cases hd : Parser.isNameStart d with
    | true =>
      have hname : d :: r = (d :: r.takeWhile Parser.isNamePart) ++ r.dropWhile Parser.isNamePart := by
        rw [List.cons_append, List.takeWhile_append_dropWhile]
      refine reaches_bind (reaches_advance (t := [d]) hc (by simp)) fun c' hc => ?_
      refine reaches_bind (reaches_skipWhile hpatient (fun _ _ => rfl) hc) fun c' hc => ?_
      refine reaches_bind (reaches_since (hname ▸ hstart) hc) fun c' hc => ?_
      rw [if_pos rfl, List.span_eq_takeWhile_dropWhile]
      refine ends_pure hc ⟨_, rfl, rfl, ?_⟩
      rw [← hskip] at hname ⊢
      exact Nat.le_of_lt (Parser.length_skip_lt_of_append hname (List.cons_ne_nil _ _))
    | false => exact ⟨d :: r, hc, rfl⟩

theorem follows_integer (hpatient : source.IsPatient) (hc : c.IsNear source.text s) :
    (integer source c).Follows source.text c.position s (Parser.integer s) := by
  refine follows_passing (skipBlanks_bind hpatient hc fun c hstart => ?_)
  refine reaches_bind (reaches_position hstart) fun c' hc => ?_
  refine reaches_bind (reaches_skipWhile hpatient (fun _ => utf8Size_of_isDigit) hc) fun c' hc => ?_
  have hsplit : skip s = (skip s).takeWhile Char.isDigit ++ (skip s).dropWhile Char.isDigit :=
    List.takeWhile_append_dropWhile.symm
  have hempty := (hsplit ▸ hstart).position_eq_iff hc
  refine reaches_bind (reaches_position hc) fun c'' hc => ?_
  rw [Parser.integer, Number.spanDigits, List.span_eq_takeWhile_dropWhile]
  dsimp only
  generalize hdigits : (skip s).takeWhile Char.isDigit = digits at *
  generalize hrest : (skip s).dropWhile Char.isDigit = rest at *
  cases digits with
  | nil =>
    rw [if_pos (hempty.mpr rfl)]
    exact ⟨rest, hc, rfl⟩
  | cons d ds =>
    rw [if_neg (mt hempty.mp (List.cons_ne_nil _ _))]
    refine reaches_bind (reaches_since (hsplit ▸ hstart) hc) fun c'' hc => ?_
    rw [List.isEmpty_cons, if_neg Bool.false_ne_true]
    cases hword : Number.readWord? (d :: ds) with
    | some n =>
      refine ends_pure hc ⟨rest, rfl, rfl, ?_⟩
      exact Nat.le_of_lt (Parser.length_skip_lt_of_append hsplit (List.cons_ne_nil _ _))
    | none => exact ⟨rest, hc, rfl⟩

theorem ends_numberTail (hpatient : source.IsPatient) {sign u : List Char} {c' : TextCursor}
    (hstart : c.IsAt source.text (skip s)) (hc : c'.IsAt source.text u) (hsign : skip s = sign ++ u)
    (hne : sign ++ u.takeWhile Parser.isNumberPart ≠ [])
    (hread : Parser.numberText s = (sign ++ u.takeWhile Parser.isNumberPart, u.dropWhile Parser.isNumberPart)) :
    ((skipWhile Parser.isNumberPart (fun _ => 1) >>= fun _ => position >>= fun p =>
      if p = c.position then fail .expectedNumber else since c.position) source c').Ends source.text c'.position
      (fun t r => Parser.numberText s = (t, r) ∧ (skip r).length < (skip s).length) fun _ => False := by
  have hsplit : skip s = sign ++ u.takeWhile Parser.isNumberPart ++ u.dropWhile Parser.isNumberPart := by
    rw [hsign, List.append_assoc, List.takeWhile_append_dropWhile]
  refine reaches_bind (reaches_skipWhile hpatient (fun _ => utf8Size_of_isNumberPart) hc) fun c' hc => ?_
  refine reaches_bind (reaches_position hc) fun c'' hc' => ?_
  rw [if_neg (mt ((hsplit ▸ hstart).position_eq_iff hc).mp hne)]
  refine (reaches_since (hsplit ▸ hstart) hc').mono (Nat.le_refl _) ?_ fun _ h => h
  rintro _ _ ⟨rfl, rfl⟩
  exact ⟨hread, Parser.length_skip_lt_of_append hsplit hne⟩

/-- The text of a number is what its parser reads. It is there where a digit or a minus sign comes next. -/
theorem ends_numberText (hpatient : source.IsPatient) (hc : c.IsNear source.text s)
    (hs : Parser.isAtDigit s = true ∨ Parser.isAt '-' s = true) :
    (numberText source c).Ends source.text c.position
      (fun t r => Parser.numberText s = (t, r) ∧ (skip r).length < (skip s).length) fun _ => False := by
  refine ends_passing (skipBlanks_bind hpatient hc fun c hstart => ?_)
  refine reaches_bind (reaches_position hstart) fun c' hc => ?_
  refine reaches_bind (reaches_isNext hc '-') fun c' hc => ?_
  cases hminus : Parser.isAt '-' s with
  | true =>
    obtain ⟨r, hskip⟩ := List.head?_eq_some_iff.mp (beq_iff_eq.mp hminus)
    have hsign : skip s = ['-'] ++ r := hskip
    rw [Parser.isAt] at hminus
    rw [hminus, if_pos rfl]
    refine reaches_bind (reaches_advance (hsign ▸ hc) rfl) fun c' hc => ?_
    exact ends_numberTail hpatient hstart hc hsign (List.cons_ne_nil _ _) (Parser.numberText_minus hskip)
  | false =>
    have hdigit := hs.resolve_right (by simp [hminus])
    have hne : (skip s).takeWhile Parser.isNumberPart ≠ [] := by
      rw [Parser.isAtDigit] at hdigit
      cases hskip : skip s with
      | nil => simp [hskip] at hdigit
      | cons d r => simp_all [Parser.isNumberPart]
    have hread := Parser.numberText_digits hminus
    rw [Parser.isAt] at hminus
    rw [hminus, if_neg Bool.false_ne_true]
    exact ends_numberTail hpatient hstart hc (List.nil_append _).symm hne hread

theorem follows_number (hpatient : source.IsPatient) (hc : c.IsNear source.text s)
    (hs : Parser.isAtDigit s = true ∨ Parser.isAt '-' s = true) :
    (number source c).Follows source.text c.position s (Parser.number s) := by
  refine follows_passing (ends_bind (ends_numberText hpatient hc hs) ?_ fun _ h => h.elim)
  rintro t r c' ⟨hread, hlt⟩ hc
  rw [Parser.number, hread]
  dsimp only
  generalize (if (t.any fun c => c == '.' || c == 'e' || c == 'E') = true then
    (Number.readFloat? t).map Value.real else (Number.readInt64? t).map Value.integer) = value
  cases value with
  | some v => exact ends_pure hc ⟨r, rfl, rfl, Nat.le_of_lt hlt⟩
  | none => exact ⟨r, hc, rfl⟩

/-- The characters of a string are what its parser reads: those that were read in earlier rounds, and
then those that are left. -/
theorem ends_stringChars (hpatient : source.IsPatient) {quote : Char} (hquote : quote.utf8Size = 1)
    (hc : c.IsAt source.text r) :
    (loop (stringChar quote) [] source c).Ends source.text c.position
      (fun chars t => Parser.stringBody quote r = .ok (chars, t) ∧ t.length ≤ r.length)
      fun e => Parser.stringBody quote r = .error e := by
  refine ends_loop List.length (fun chars t => t.length ≤ r.length ∧ Parser.stringBody quote r =
    (Parser.stringBody quote t).map fun one => (chars ++ one.1, one.2)) hpatient (fun _ => Nat.le_refl _)
    ?_ hc ⟨Nat.le_refl _, ?_⟩
  · rintro chars t c ⟨hle, hinv⟩ hc
    refine reaches_bind (reaches_peekChar hc) fun c hc => ?_
    rw [hinv, Parser.stringBody.eq_def]
    cases t with
    | nil => exact ⟨[], hc, rfl⟩
    | cons d t =>
      rw [List.length_cons] at hle
      dsimp only [List.head?_cons]
      by_cases hclose : d = quote
      · rw [if_pos hclose, if_pos hclose]
        refine reaches_bind (reaches_advance (t := [d]) hc (by simp [hclose, hquote])) fun c hc => ?_
        exact ends_pure hc ⟨by simp [Except.map], by omega⟩
      · rw [if_neg hclose, if_neg hclose]
        by_cases hescape : d = '\\'
        · rw [if_pos hescape, if_pos hescape]
          refine reaches_bind (reaches_advance (t := [d]) hc (by rw [hescape]; rfl)) fun c hc => ?_
          refine reaches_bind (reaches_peekChar hc) fun c hc => ?_
          cases t with
          | nil => exact ends_pure hc ⟨Nat.lt_add_one _, Nat.zero_le _, rfl⟩
          | cons e t =>
            rw [List.length_cons] at hle
            refine reaches_bind (reaches_advance (t := [e]) hc (by simp)) fun c hc => ?_
            refine ends_pure hc ⟨by simp only [List.length_cons]; omega, by omega, ?_⟩
            dsimp only
            cases Parser.stringBody quote t <;> simp [Except.map]
        · rw [if_neg hescape, if_neg hescape]
          refine reaches_bind (reaches_advance (t := [d]) hc (by simp)) fun c hc => ?_
          refine ends_pure hc ⟨Nat.lt_add_one _, by omega, ?_⟩
          cases Parser.stringBody quote t <;> simp [Except.map]
  · cases Parser.stringBody quote r <;> rfl

theorem follows_string (hpatient : source.IsPatient) (hc : c.IsAt source.text (skip s))
    {result : Except Parser.Failure (String × List Char)} (hs : Parser.string? s = some result) :
    (string source c).Follows source.text c.position s result := by
  refine follows_passing (reaches_bind (reaches_peekChar hc) fun c hc => ?_)
  rw [Parser.string?] at hs
  cases hskip : skip s with
  | nil =>
    rw [hskip] at hs
    cases hs
  | cons d r =>
    rw [hskip] at hs hc
    dsimp only [List.head?_cons] at hs ⊢
    split at hs
    · next hquote =>
      obtain rfl := Option.some.inj hs
      have hwidth : d.utf8Size = 1 := by rcases hquote with rfl | rfl <;> rfl
      rw [if_pos hquote]
      refine reaches_bind (reaches_advance (t := [d]) hc (by simp [hwidth])) fun c hc => ?_
      refine ends_bind (ends_stringChars hpatient hwidth hc) ?_ fun e he => ?_
      · rintro chars t c ⟨hread, hle⟩ hc
        rw [hread]
        refine ends_pure hc ⟨t, rfl, rfl, ?_⟩
        rw [List.length_cons]
        exact Nat.le_succ_of_le (Nat.le_trans (Parser.length_skip_le t) hle)
      · rw [he]
        rfl
    · cases hs

/-! ## Lists -/

/-- What is read further, after items that have been read. -/
def afterItems (items : List α) (result : Except Parser.Failure (List α × List Char)) :
    Except Parser.Failure (List α × List Char) := result.map fun (more, r) => (items ++ more, r)

@[simp] theorem afterItems_ok (items more : List α) (r : List Char) :
    afterItems items (.ok (more, r)) = .ok (items ++ more, r) := rfl

@[simp] theorem afterItems_error (items : List α) (e : Parser.Failure) :
    afterItems items (.error e) = .error e := rfl

theorem afterItems_nil (result : Except Parser.Failure (List α × List Char)) : afterItems [] result = result := by
  cases result <;> rfl

theorem afterItems_cons (items : List α) (a : α) (result : Except Parser.Failure (List α × List Char)) :
    afterItems items (result >>= fun (more, r) => .ok (a :: more, r)) = afterItems (items ++ [a]) result := by
  cases result with
  | error e => rfl
  | ok more => exact congrArg (fun l => Except.ok (l, more.2)) (List.append_cons ..)

theorem afterItems_singleton (a : α) (result : Except Parser.Failure (List α × List Char)) :
    afterItems [a] result = result >>= fun (more, r) => .ok (a :: more, r) := by
  cases result <;> rfl

theorem afterItems_more {token : List Char → Option (List Char)} (parse : Parser.Parse α)
    (htoken : token s = some r) (n : Nat) (items : List α) :
    afterItems items (Parser.more token parse (n + 1) s) =
      parse r >>= fun (a, u) => afterItems (items ++ [a]) (Parser.more token parse n u) := by
  rw [Parser.more, htoken]
  cases hr : parse r with
  | error e => simp [bind, Except.bind, hr]
  | ok one => simpa [bind, Except.bind, pure, Except.pure, hr] using afterItems_cons items one.1 _

theorem follows_itemsUntil {bound n : Nat} {close : Char} {item : Scan α} {parse : Parser.Parse α}
    (hpatient : source.IsPatient) (h : Follows source bound item parse) (hc : c.IsNear source.text s)
    (hs : (skip s).length < bound) (hn : (skip s).length < n) :
    (itemsUntil close item source c).Follows source.text c.position s
      (Parser.itemsUntil close parse n s) := by
  obtain ⟨n, rfl⟩ : ∃ m, n = m + 1 := Nat.exists_eq_add_one.mpr (Nat.zero_lt_of_lt hn)
  rw [← afterItems_nil (Parser.itemsUntil _ _ _ _)]
  refine follows_passing (follows_loop (fun n items s => afterItems items (Parser.itemsUntil close parse (n + 1) s))
    hpatient ?_ hc hs (Nat.le_of_lt_succ hn))
  intro n items s c hc hs hn
  rw [Parser.itemsUntil, Parser.isAt]
  refine skipBlanks_bind hpatient hc fun c hc => ?_
  refine reaches_bind (reaches_isNext hc close) fun c hc => ?_
  cases hclose : (skip s).head? == some close with
  | true => exact round_stop hc.isNear_skip (by simp) (Nat.le_refl _)
  | false =>
    rw [if_neg Bool.false_ne_true, if_neg Bool.false_ne_true]
    refine round_bind (h c s hc.isNear_skip hs) (fun a r c hr hc hle => ?_) fun e he => ?_
    · rw [hr]
      refine (finds_tryChar hpatient ',').ite hc (fun u c hcomma hc hlt => ?_) fun c hcomma hc => ?_
      · obtain ⟨n, rfl⟩ : ∃ m, n = m + 1 := Nat.exists_eq_add_one.mpr (by omega)
        refine round_next (n := n) hc.isNear ?_ (by omega) (by omega)
        rw [← afterItems_cons]
        simp only [bind, Except.bind, hcomma]
        rfl
      · refine round_stop hc.isNear_skip ?_ hle
        simp only [bind, Except.bind, hcomma]
        rfl
    · rw [he]
      rfl

/-- Further items after a separator: those of earlier rounds, and then those that are left. -/
theorem follows_more {bound n : Nat} {separator : Scan Bool} {token : List Char → Option (List Char)}
    {item : Scan α} {parse : Parser.Parse α} (hpatient : source.IsPatient)
    (hseparator : Finds source separator token) (h : Follows source bound item parse)
    (hc : c.IsNear source.text s) (hs : (skip s).length < bound) (hn : (skip s).length ≤ n) (items : List α) :
    (loop (fun items => do
      if ← separator then return .inl (items ++ [← item]) else return .inr items) items source c).Follows
      source.text c.position s (afterItems items (Parser.more token parse n s)) := by
  refine follows_loop (fun n items s => afterItems items (Parser.more token parse n s)) hpatient ?_ hc hs hn
  intro n items s c hc hs hn
  refine hseparator.ite hc (fun r c htoken hc hlt => ?_) fun c htoken hc => ?_
  · obtain ⟨n, rfl⟩ : ∃ m, n = m + 1 := Nat.exists_eq_add_one.mpr (by omega)
    rw [afterItems_more parse htoken]
    refine round_bind (h c r hc.isNear (by omega)) (fun a u c hu hc hle => ?_) fun e he => by rw [he]; rfl
    rw [hu]
    exact round_next hc rfl (by omega) (by omega)
  · refine round_stop hc.isNear_skip ?_ (Nat.le_refl _)
    cases n with
    | zero => simp [Parser.more]
    | succ n => simp [Parser.more, htoken]

theorem follows_separated {bound : Nat} {separator : Scan Bool} {token : List Char → Option (List Char)}
    {item : Scan α} {parse : Parser.Parse α} (hpatient : source.IsPatient)
    (hseparator : Finds source separator token) (h : Follows source bound item parse) :
    Follows source bound (separated separator item) (Parser.separated token parse) := by
  intro c s hc hs
  refine follows_passing (follows_bind (h c s hc hs) fun a r c hc hle => ?_)
  have hmore := follows_more hpatient hseparator h hc (Nat.lt_of_le_of_lt hle hs) (Parser.length_skip_le r) [a]
  rw [afterItems_singleton] at hmore
  exact hmore

end Scan

end GraphPatterns
