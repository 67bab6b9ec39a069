/-
Texts of numbers. The text of a whole number is read as that number (`number_of_skip`), and the text of a
double as that double exactly where it has a fraction (`number_of_hasFraction`, `hasFraction_of_number`).
-/
import GraphPatterns.Proofs.Reading
import GraphPatterns.Proofs.ShortestDigits

namespace GraphPatterns

open GraphPatterns.Parser GraphPatterns.Number

namespace Number

/-! ## Reading -/

theorem readSign_cons {c : Char} (hc : c.isDigit = true) (r : List Char) :
    readSign (c :: r) = (false, c :: r) := by
  have hminus : c ≠ '-' := ne_of_test hc rfl
  have hplus : c ≠ '+' := ne_of_test hc rfl
  unfold readSign
  split
  · next h => exact absurd (List.cons.inj h).1 hminus
  · next h => exact absurd (List.cons.inj h).1 hplus
  · rfl

theorem readSign_append {c : Char} (hc : c.isDigit = true) (r : List Char) (negative : Bool) :
    readSign ((if negative then ['-'] else []) ++ c :: r) = (negative, c :: r) := by
  cases negative with
  | true => rfl
  | false => exact readSign_cons hc r

theorem readInt64?_digits {digits : List Char} {i : Int64} (hne : digits ≠ [])
    (hdigits : ∀ c ∈ digits, c.isDigit = true) (negative : Bool)
    (hi : i.toInt = if negative then -(digitsValue digits : Int) else digitsValue digits) :
    readInt64? ((if negative then ['-'] else []) ++ digits) = some i := by
  have hsign : readSign ((if negative then ['-'] else []) ++ digits) = (negative, digits) := by
    obtain ⟨c, r, rfl⟩ := List.exists_cons_of_ne_nil hne
    exact readSign_append (hdigits c List.mem_cons_self) r negative
  have hempty : digits.isEmpty = false := List.isEmpty_eq_false_iff.mpr hne
  have hall : digits.all Char.isDigit = true := List.all_eq_true.mpr hdigits
  rw [readInt64?, hsign]
  simp only [hempty, hall, Bool.not_true, Bool.or_self, Bool.false_eq_true, if_false, ← hi,
    Int64.ofInt_toInt]
  exact if_pos ⟨Int64.le_toInt i, Int.le_of_lt_add_one (Int64.toInt_lt i)⟩

theorem readFloat?_decimal {whole fraction : List Char} (hne : whole ≠ [])
    (hwhole : ∀ c ∈ whole, c.isDigit = true) (hfraction : ∀ c ∈ fraction, c.isDigit = true)
    (negative : Bool) :
    readFloat? ((if negative then ['-'] else []) ++ (whole ++ '.' :: fraction)) =
      some (ofDecimal negative (digitsValue (whole ++ fraction)) (-fraction.length)) := by
  have hsign : readSign ((if negative then ['-'] else []) ++ (whole ++ '.' :: fraction)) =
      (negative, whole ++ '.' :: fraction) := by
    obtain ⟨c, r, rfl⟩ := List.exists_cons_of_ne_nil hne
    exact readSign_append (hwhole c List.mem_cons_self) _ negative
  have hname (name : String) (hpoint : '.' ∉ name.toList) :
      String.ofList ((whole ++ '.' :: fraction).map Char.toLower) ≠ name := by
    intro heq
    have hmem : '.' ∈ (whole ++ '.' :: fraction).map Char.toLower :=
      List.mem_map.mpr ⟨'.', List.mem_append_right _ List.mem_cons_self, rfl⟩
    rw [← heq, String.toList_ofList] at hpoint
    exact hpoint hmem
  have hspan : spanDigits (whole ++ '.' :: fraction) = (whole, '.' :: fraction) :=
    span_append hwhole fun c hc => by
      obtain rfl := Option.some.inj hc
      rfl
  have hspan' : spanDigits fraction = (fraction, []) := by
    have hend : (fraction ++ []).span Char.isDigit = (fraction, []) :=
      span_append hfraction fun c hc => by cases hc
    rwa [List.append_nil] at hend
  have hempty : (whole.isEmpty && fraction.isEmpty) = false := by
    rw [List.isEmpty_eq_false_iff.mpr hne, Bool.false_and]
  rw [readFloat?, hsign]
  dsimp only
  rw [if_neg (not_or.mpr ⟨hname _ (by decide), hname _ (by decide)⟩), if_neg (hname _ (by decide)),
    readUnsigned?, hspan]
  simp only [hspan', hempty, Bool.false_eq_true, if_false, readExponent?, Option.map_some, Int.zero_sub]

/-! ## Writing doubles -/

/-- The double is finite and not a whole number. -/
def HasFraction (x : Float) : Prop :=
  match magnitude x with
  | .finite m e => ¬ IsWhole m e
  | _ => False

instance (x : Float) : Decidable (HasFraction x) :=
  match h : magnitude x with
  | .finite m e => decidable_of_iff (¬ IsWhole m e) (by rw [HasFraction, h])
  | .infinite => .isFalse (by rw [HasFraction, h]; exact id)
  | .notNumber => .isFalse (by rw [HasFraction, h]; exact id)

example : HasFraction 0.1 ∧ ¬ HasFraction 1.0 := by decide

theorem digitsValue_leading (zeros : Nat) (t : List Char) :
    digitsValue (List.replicate zeros '0' ++ t) = digitsValue t := by
  induction zeros with
  | zero => rfl
  | succ zeros ih => rw [List.replicate_succ]; exact ih

section

variable {d : Digits} (hne : d.digits ≠ []) (hdigits : ∀ c ∈ d.digits, c.isDigit = true)
include hne hdigits

theorem positional_of_lt (h : d.order < d.digits.length) : ∃ whole fraction : List Char,
    d.positional = whole ++ '.' :: fraction ∧ whole ≠ [] ∧ (∀ c ∈ whole, c.isDigit = true) ∧
      (∀ c ∈ fraction, c.isDigit = true) ∧ digitsValue (whole ++ fraction) = digitsValue d.digits ∧
        -(fraction.length : Int) = d.order - d.digits.length := by
  unfold Digits.positional
  by_cases horder : d.order ≤ 0
  · refine ⟨['0'], List.replicate (-d.order).toNat '0' ++ d.digits, ?_, ?_, ?_, ?_, ?_, ?_⟩
    · rw [if_pos horder, List.append_assoc]
      rfl
    · simp
    · simp
    · intro c hc
      rcases List.mem_append.mp hc with hc | hc
      · rw [List.eq_of_mem_replicate hc]
        rfl
      · exact hdigits c hc
    · exact digitsValue_leading ((-d.order).toNat + 1) d.digits
    · rw [List.length_append, List.length_replicate]
      omega
  · have hlength : ¬ d.digits.length ≤ d.order.toNat := by omega
    refine ⟨d.digits.take d.order.toNat, d.digits.drop d.order.toNat, ?_, ?_, ?_, ?_, ?_, ?_⟩
    · rw [if_neg horder]
      dsimp only
      rw [if_neg hlength, List.append_assoc]
      rfl
    · intro hnil
      rw [List.take_eq_nil_iff] at hnil
      exact hnil.elim (by omega) hne
    · exact fun c hc => hdigits c (List.mem_of_mem_take hc)
    · exact fun c hc => hdigits c (List.mem_of_mem_drop hc)
    · rw [List.take_append_drop]
    · rw [List.length_drop]
      omega

theorem positional_of_le (h : d.digits.length ≤ d.order) :
    d.positional ≠ [] ∧ ∀ c ∈ d.positional, c.isDigit = true := by
  have hlength := List.length_pos_iff.mpr hne
  have horder : ¬ d.order ≤ 0 := by omega
  have hwhole : d.digits.length ≤ d.order.toNat := by omega
  unfold Digits.positional
  rw [if_neg horder]
  dsimp only
  rw [if_pos hwhole]
  refine ⟨List.append_ne_nil_of_left_ne_nil hne _, fun c hc => ?_⟩
  rcases List.mem_append.mp hc with hc | hc
  · exact hdigits c hc
  · rw [List.eq_of_mem_replicate hc]
    rfl

end

theorem toList_renderFloat {x : Float} {m : Nat} {e : Int} (h : magnitude x = .finite m e) (hm : 0 < m) :
    (renderFloat x).toList = (if isNegative x then ['-'] else []) ++ (shortest m e).positional := by
  unfold renderFloat
  rw [h]
  dsimp only
  split
  · next heq => cases heq
  · next heq => cases heq
  · next heq => cases heq; cases hm
  · next heq =>
    cases heq
    rw [String.toList_ofList]

/-- The text of a double with a fraction has a point in it, and stands for a number that is rounded to
the double. -/
theorem HasFraction.text {x : Float} (h : HasFraction x) : ∃ whole fraction : List Char,
    (renderFloat x).toList = (if isNegative x then ['-'] else []) ++ (whole ++ '.' :: fraction) ∧
      whole ≠ [] ∧ (∀ c ∈ whole, c.isDigit = true) ∧ (∀ c ∈ fraction, c.isDigit = true) ∧
        ofDecimal (isNegative x) (digitsValue (whole ++ fraction)) (-fraction.length) = x := by
  unfold HasFraction at h
  split at h
  · next m e hmagnitude =>
    obtain ⟨hfinite, hbits⟩ := of_magnitude hmagnitude
    have hm : 0 < m := Nat.pos_of_ne_zero fun hzero => h (.inr (hzero ▸ Nat.dvd_zero _))
    obtain ⟨hne, hdigits⟩ := shortest_digits hfinite hm
    have hpoint : (shortest m e).order < (shortest m e).digits.length :=
      not_le.mp fun hle => h ((shortest_isWhole_iff hfinite hm).mp hle)
    obtain ⟨whole, fraction, htext, hwhole, hdigit, hdigit', hvalue, hlength⟩ :=
      positional_of_lt hne hdigits hpoint
    refine ⟨whole, fraction, ?_, hwhole, hdigit, hdigit', ?_⟩
    · rw [toList_renderFloat hmagnitude hm, htext]
    · rw [hvalue, hlength, ofDecimal_of_mem hfinite hm (shortest_mem hfinite hm), hbits]
  · exact h.elim

/-- Other doubles are written as digits alone, or with letters. -/
theorem text_of_not_hasFraction {x : Float} (h : ¬ HasFraction x) :
    ∃ (negative : Bool) (digits letters : List Char), (renderFloat x).toList =
      (if negative then ['-'] else []) ++ digits ++ letters ∧ (∀ c ∈ digits, c.isDigit = true) ∧
        (digits ≠ [] ∧ letters = [] ∨ digits = [] ∧ (letters = ['i', 'n', 'f'] ∨ letters = ['N', 'a', 'N'])) := by
  unfold HasFraction at h
  split at h
  · next m e hmagnitude =>
    rcases Nat.eq_zero_or_pos m with rfl | hm
    · refine ⟨isNegative x, ['0'], [], ?_, by simp, .inl ⟨by simp, rfl⟩⟩
      rw [renderFloat, hmagnitude, List.append_nil]
      exact String.toList_ofList
    · obtain ⟨hfinite, -⟩ := of_magnitude hmagnitude
      obtain ⟨hne, hdigits⟩ := shortest_digits hfinite hm
      have hwhole := (shortest_isWhole_iff hfinite hm).mpr (not_not.mp h)
      obtain ⟨hpositional, hdigit⟩ := positional_of_le hne hdigits hwhole
      refine ⟨isNegative x, (shortest m e).positional, [], ?_, hdigit, .inl ⟨hpositional, rfl⟩⟩
      rw [toList_renderFloat hmagnitude hm, List.append_nil]
  · next hfinite =>
    cases hmagnitude : magnitude x with
    | notNumber =>
      refine ⟨false, [], ['N', 'a', 'N'], ?_, by simp, .inr ⟨rfl, .inr rfl⟩⟩
      unfold renderFloat
      rw [hmagnitude]
      exact String.toList_ofList
    | infinite =>
      refine ⟨isNegative x, [], ['i', 'n', 'f'], ?_, by simp, .inr ⟨rfl, .inl rfl⟩⟩
      rw [renderFloat, hmagnitude, List.append_nil]
      exact String.toList_ofList
    | finite m e => exact absurd hmagnitude (hfinite m e)

end Number

namespace Parser

variable {s rest : List Char}

/-! ## The text of a number -/

theorem Ends.isNumberPart (h : Ends rest) : ∀ c ∈ rest.head?, isNumberPart c = false := by
  intro c hc
  have hpart := h.1 c hc
  have hdigit : c.isDigit = false :=
    Bool.eq_false_iff.mpr fun hd => by rw [isNamePart_of_isDigit hd] at hpart; cases hpart
  have hdot : c ≠ '.' := by
    rintro rfl
    obtain ⟨r, rfl⟩ := List.head?_eq_some_iff.mp hc
    exact absurd h.2 (by rw [isAt_of_skip (skip_cons rfl (by decide))]; decide)
  have he : c ≠ 'e' := by rintro rfl; cases hpart
  have hE : c ≠ 'E' := by rintro rfl; cases hpart
  simp [Parser.isNumberPart, hdigit, hdot, he, hE]

theorem isNumberPart_of_isDigit {c : Char} (h : c.isDigit = true) : isNumberPart c = true := by
  simp [isNumberPart, h]

/-- The text of a number reaches as far as its characters do. -/
theorem numberText_of_skip {t : List Char} (ht : ∀ c ∈ t, isNumberPart c = true) (negative : Bool)
    (h : skip s = (if negative then ['-'] else []) ++ t ++ rest)
    (hrest : ∀ c ∈ rest.head?, isNumberPart c = false) (hsign : t = [] → rest.head? ≠ some '-') :
    numberText s = ((if negative then ['-'] else []) ++ t, rest) := by
  have hspan : (t ++ rest).span isNumberPart = (t, rest) := span_append ht hrest
  rw [numberText, h]
  cases negative with
  | true => simp only [if_true, List.cons_append, List.nil_append, hspan]
  | false =>
    rw [if_neg Bool.false_ne_true, List.nil_append, ← hspan]
    split
    · next r heq =>
      cases t with
      | nil => exact absurd (congrArg List.head? heq) (hsign rfl)
      | cons c t =>
        have hminus : c ≠ '-' := ne_of_test (ht c List.mem_cons_self) rfl
        exact absurd (List.cons.inj heq).1 hminus
    · rfl

theorem any_digits {digits : List Char} (hdigits : ∀ c ∈ digits, c.isDigit = true) (negative : Bool) :
    (((if negative then ['-'] else []) ++ digits).any fun c => c == '.' || c == 'e' || c == 'E') = false := by
  have hany : (digits.any fun c => c == '.' || c == 'e' || c == 'E') = false := by
    refine List.any_eq_false.mpr fun c hc => ?_
    have hdigit := hdigits c hc
    have hdot : c ≠ '.' := ne_of_test hdigit rfl
    have he : c ≠ 'e' := ne_of_test hdigit rfl
    have hE : c ≠ 'E' := ne_of_test hdigit rfl
    simp [hdot, he, hE]
  rw [List.any_append, hany]
  cases negative <;> rfl

theorem exists_signed {c : Char} (hc : c.isDigit = true) (r : List Char) (negative : Bool) :
    ∃ d t, (if negative then ['-'] else []) ++ c :: r = d :: t ∧ (d.isDigit = true ∨ d = '-') := by
  cases negative with
  | true => exact ⟨'-', c :: r, rfl, .inr rfl⟩
  | false => exact ⟨c, r, rfl, .inl hc⟩

/-! ## Whole numbers -/

theorem number_digits {digits : List Char} {i : Int64} (hne : digits ≠ [])
    (hdigits : ∀ c ∈ digits, c.isDigit = true) (negative : Bool)
    (hi : i.toInt = if negative then -(digitsValue digits : Int) else digitsValue digits)
    (h : skip s = (if negative then ['-'] else []) ++ digits ++ rest) (hrest : Ends rest) :
    number s = .ok (.integer i, rest) := by
  have hmarks := any_digits hdigits negative
  rw [number, numberText_of_skip (fun c hc => isNumberPart_of_isDigit (hdigits c hc)) negative h
    hrest.isNumberPart fun hnil => absurd hnil hne]
  simp only [hmarks, readInt64?_digits hne hdigits negative hi]
  rfl

theorem exists_toString_integer (i : Int64) : ∃ (negative : Bool) (n : Nat),
    i.toInt = (if negative then -(n : Int) else n) ∧
      (toString i.toInt).toList = (if negative then ['-'] else []) ++ Nat.toDigits 10 n := by
  rcases Int.eq_nat_or_neg i.toInt with ⟨n, hn | hn⟩
  · exact ⟨false, n, hn, by rw [hn]; exact Nat.toList_repr⟩
  · cases n with
    | zero => exact ⟨false, 0, by simpa using hn, by rw [hn]; rfl⟩
    | succ n =>
      refine ⟨true, n + 1, hn, ?_⟩
      rw [hn]
      change ("-" ++ (n + 1).repr).toList = _
      rw [String.toList_append, Nat.toList_repr]
      rfl

theorem toList_integer {i : Int64} (hi : 0 ≤ i.toInt) :
    (toString i.toInt).toList = Nat.toDigits 10 i.toInt.toNat := by
  conv => lhs; rw [← Int.toNat_of_nonneg hi]
  exact Nat.toList_repr

theorem exists_toList_integer (i : Int64) :
    ∃ c r, (toString i.toInt).toList = c :: r ∧ (c.isDigit = true ∨ c = '-') := by
  obtain ⟨negative, n, -, htext⟩ := exists_toString_integer i
  obtain ⟨c, r, hdigits, hc⟩ := exists_toDigits n
  rw [htext, hdigits]
  exact exists_signed hc r negative

theorem number_of_skip {i : Int64} (h : skip s = (toString i.toInt).toList ++ rest)
    (hrest : Ends rest) : number s = .ok (.integer i, rest) := by
  obtain ⟨negative, n, hi, htext⟩ := exists_toString_integer i
  rw [htext] at h
  rw [← digitsValue_toDigits n] at hi
  exact number_digits Nat.toDigits_ne_nil isDigit_of_mem_toDigits negative hi h hrest

/-! ## Doubles -/

theorem exists_toList_renderFloat {x : Float} (h : HasFraction x) :
    ∃ c r, (renderFloat x).toList = c :: r ∧ (c.isDigit = true ∨ c = '-') := by
  obtain ⟨whole, fraction, htext, hwhole, hdigits, -⟩ := h.text
  obtain ⟨c, r, rfl⟩ := List.exists_cons_of_ne_nil hwhole
  rw [htext, List.cons_append]
  exact exists_signed (hdigits c List.mem_cons_self) _ (isNegative x)

theorem starts_signed {c : Char} {r : List Char} (hc : c.isDigit = true ∨ c = '-') : Starts (c :: r) := by
  rcases hc with hc | rfl
  · exact starts_of_isDigit hc r
  · exact ⟨'-', r, rfl, rfl, by decide⟩

theorem starts_renderFloat (x : Float) : Starts (renderFloat x).toList := by
  by_cases h : HasFraction x
  · obtain ⟨c, r, htext, hc⟩ := exists_toList_renderFloat h
    rw [htext]
    exact starts_signed hc
  · obtain ⟨negative, digits, letters, htext, hdigits, hkind⟩ := text_of_not_hasFraction h
    rw [htext]
    rcases hkind with ⟨hne, -⟩ | ⟨rfl, hletters⟩
    · obtain ⟨c, r, rfl⟩ := List.exists_cons_of_ne_nil hne
      obtain ⟨d, t, hsigned, hd⟩ := exists_signed (hdigits c List.mem_cons_self) r negative
      rw [hsigned, List.cons_append]
      exact starts_signed hd
    · cases negative with
      | true => exact starts_signed (.inr rfl)
      | false =>
        rcases hletters with rfl | rfl
        · exact ⟨'i', _, rfl, rfl, by decide⟩
        · exact ⟨'N', _, rfl, rfl, by decide⟩

section

variable {x : Float} (h : skip s = (renderFloat x).toList ++ rest) (hrest : Ends rest)
include h hrest

theorem number_of_hasFraction (hx : HasFraction x) : number s = .ok (.real x, rest) := by
  obtain ⟨whole, fraction, htext, hwhole, hdigit, hdigit', hvalue⟩ := hx.text
  have hparts : ∀ c ∈ whole ++ '.' :: fraction, isNumberPart c = true := by
    intro c hc
    rcases List.mem_append.mp hc with hc | hc
    · exact isNumberPart_of_isDigit (hdigit c hc)
    · rcases List.mem_cons.mp hc with rfl | hc
      · rfl
      · exact isNumberPart_of_isDigit (hdigit' c hc)
  have hmark : (((if isNegative x then ['-'] else []) ++ (whole ++ '.' :: fraction)).any
      fun c => c == '.' || c == 'e' || c == 'E') = true :=
    List.any_eq_true.mpr ⟨'.', by simp, rfl⟩
  have hne : whole ++ '.' :: fraction ≠ [] := List.append_ne_nil_of_left_ne_nil hwhole _
  rw [htext] at h
  rw [number, numberText_of_skip hparts (isNegative x) h hrest.isNumberPart fun hnil => absurd hnil hne]
  simp only [hmark, if_true, readFloat?_decimal hwhole hdigit hdigit', hvalue]
  rfl

/-- A double without a fraction is read as a whole number if it is read at all. -/
theorem hasFraction_of_number {y : Float} {r : List Char} (hy : number s = .ok (.real y, r)) :
    HasFraction x := by
  by_contra hx
  obtain ⟨negative, digits, letters, htext, hdigits, hkind⟩ := text_of_not_hasFraction hx
  rw [htext, List.append_assoc] at h
  have hhead : ∀ c ∈ (letters ++ rest).head?, isNumberPart c = false := by
    rcases hkind with ⟨-, rfl⟩ | ⟨-, rfl | rfl⟩
    · exact hrest.isNumberPart
    · exact fun c hc => Option.some.inj hc ▸ rfl
    · exact fun c hc => Option.some.inj hc ▸ rfl
  have hsign : digits = [] → (letters ++ rest).head? ≠ some '-' := by
    intro hnil
    rcases hkind with ⟨hne, -⟩ | ⟨-, rfl | rfl⟩
    · exact absurd hnil hne
    · exact fun heq => absurd (Option.some.inj heq) (by decide)
    · exact fun heq => absurd (Option.some.inj heq) (by decide)
  have hmarks := any_digits hdigits negative
  rw [number, numberText_of_skip (fun c hc => isNumberPart_of_isDigit (hdigits c hc)) negative h hhead
    hsign] at hy
  simp only [hmarks] at hy
  cases hread : readInt64? ((if negative then ['-'] else []) ++ digits) with
  | none => simp only [hread] at hy; cases hy
  | some i => simp only [hread] at hy; cases hy

end

end Parser

end GraphPatterns
