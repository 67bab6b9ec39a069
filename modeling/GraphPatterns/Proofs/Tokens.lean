/-
What the parsers of tokens read. Every parser looks at a text from its first character that is neither
blank nor in a comment; the lemmas speak of what stands there. A token ends where the next character
cannot be part of it, so what a parser reads depends on what follows.
-/
import GraphPatterns.Pattern.Parser.Expr
import Mathlib.Data.List.TakeDrop
import Mathlib.Data.List.TakeWhile

namespace GraphPatterns.Parser

/-! ## Characters -/

/-- The blanks beyond the first 128 characters. -/
def wideBlanks : List Nat :=
  [0x85, 0xA0, 0x1680] ++ List.range' 0x2000 11 ++ [0x2028, 0x2029, 0x202F, 0x205F, 0x3000]

theorem isLetterOrNumber_of_isBlank {c : Char} (h : Text.isBlank c = true) :
    Text.isLetterOrNumber c = false := by
  have hcode : 9 ≤ c.toNat ∧ c.toNat ≤ 13 ∨ c.toNat = 32 ∨ c.toNat ∈ wideBlanks := by
    simp only [Text.isBlank, Bool.or_eq_true, Bool.and_eq_true, decide_eq_true_eq, beq_iff_eq] at h
    simp only [wideBlanks, List.mem_append, List.mem_range'_1, List.mem_cons, List.not_mem_nil]
    omega
  rw [Text.isLetterOrNumber]
  split
  · next hascii =>
    have hnames : ∀ n ∈ List.range' 9 5 ++ [32], (Char.ofNat n).isAlphanum = false := by decide
    have hmem : c.toNat ∈ List.range' 9 5 ++ [32] := by
      have hwide : ∀ n ∈ wideBlanks, 128 ≤ n := by decide
      rcases hcode with hcode | hcode | hcode
      · simp only [List.mem_append, List.mem_range'_1]
        omega
      · simp [hcode]
      · exact absurd (hwide _ hcode) (Nat.not_le.mpr hascii)
    have hc := hnames _ hmem
    rwa [Char.ofNat_toNat] at hc
  · next hascii =>
    have hmem : c.toNat ∈ wideBlanks := by
      rcases hcode with hcode | hcode | hcode
      · omega
      · omega
      · exact hcode
    -- The tables are folded as lists, which the kernel evaluates faster than arrays.
    have hletter : ∀ n ∈ wideBlanks, Text.alphabetic.boundaries.toList.foldl
        (fun m b => if b ≤ n then m + 1 else m) 0 % 2 = 0 := by decide +kernel
    have hnumber : ∀ n ∈ wideBlanks, Text.numeric.boundaries.toList.foldl
        (fun m b => if b ≤ n then m + 1 else m) 0 % 2 = 0 := by decide +kernel
    simp only [Text.CharClass.contains, Text.CharClass.rank, ← Array.foldl_toList,
      hletter _ hmem, hnumber _ hmem]
    rfl

theorem isBlank_of_isNamePart {c : Char} (h : isNamePart c = true) : Text.isBlank c = false := by
  rw [isNamePart, Bool.or_eq_true, beq_iff_eq] at h
  rcases h with h | rfl
  · refine Bool.eq_false_iff.mpr fun hblank => ?_
    rw [isLetterOrNumber_of_isBlank hblank] at h
    cases h
  · rfl

theorem isNamePart_of_isNameStart {c : Char} (h : isNameStart c = true) : isNamePart c = true := by
  rw [isNameStart, Bool.or_eq_true] at h
  rw [isNamePart, Bool.or_eq_true]
  refine h.imp_left fun h => ?_
  rw [Text.isLetter] at h
  rw [Text.isLetterOrNumber]
  split at h
  · simp [*, Char.isAlphanum]
  · simp [*]

theorem isNamePart_of_isDigit {c : Char} (h : c.isDigit = true) : isNamePart c = true := by
  have hcode : c.toNat < 128 := by
    simp only [Char.isDigit, Bool.and_eq_true, decide_eq_true_eq, UInt32.le_iff_toNat_le] at h
    exact Nat.lt_of_le_of_lt h.2 (by decide)
  simp [isNamePart, Text.isLetterOrNumber, hcode, Char.isAlphanum, h]

theorem isDigit_of_isNameStart {c : Char} (h : isNameStart c = true) : c.isDigit = false := by
  refine Bool.eq_false_iff.mpr fun hdigit => ?_
  simp only [Char.isDigit, Bool.and_eq_true, decide_eq_true_eq, UInt32.le_iff_toNat_le] at hdigit
  have hle : c.toNat ≤ 57 := hdigit.2
  have hcode : c.toNat < 128 := by omega
  rw [isNameStart, Text.isLetter, if_pos hcode, Bool.or_eq_true] at h
  rcases h with halpha | hunderscore
  · rcases Bool.or_eq_true_iff.mp halpha with hupper | hlower
    · have hrange : c.val ≥ 'A'.val ∧ c.val ≤ 'Z'.val := of_decide_eq_true hupper
      have : 65 ≤ c.toNat := UInt32.le_iff_toNat_le.mp hrange.1
      omega
    · have hrange : c.val ≥ 'a'.val := of_decide_eq_true (Bool.and_eq_true_iff.mp hlower).1
      have : 97 ≤ c.toNat := UInt32.le_iff_toNat_le.mp hrange
      omega
  · rw [beq_iff_eq.mp hunderscore] at hle
    exact absurd hle (by decide)

theorem ne_of_test {p : Char → Bool} {c d : Char} (hc : p c = true) (hd : p d = false) : c ≠ d := by
  rintro rfl
  rw [hc] at hd
  cases hd

/-! ## Skipping -/

theorem skip_cons {c : Char} {s : List Char} (hblank : Text.isBlank c = false) (hc : c ≠ '/') :
    skip (c :: s) = c :: s := by
  rw [skip]
  generalize hgap : Gap.blanks = gap
  generalize ht : c :: s = t
  fun_cases skipFrom gap t with
  | case1 => exact absurd (List.cons.inj ht).1 hc
  | case2 => exact absurd (List.cons.inj ht).1 hc
  | case3 _ _ _ _ h =>
    rw [← (List.cons.inj ht).1, hblank] at h
    cases h
  | case4 => rfl
  | case9 => cases ht
  | _ => cases hgap

@[simp] theorem skip_space (s : List Char) : skip (' ' :: s) = skip s := rfl

theorem length_skip_le (s : List Char) : (skip s).length ≤ s.length := by
  suffices ∀ gap, (skipFrom gap s).length ≤ s.length from this .blanks
  intro gap
  fun_induction skipFrom gap s <;> simp only [List.length_cons, List.length_nil] <;> omega

/-! ## Single characters -/

section

variable {c d : Char} {s r rest : List Char}

theorem char?_of_skip (h : skip s = c :: r) : char? c s = some r := by
  rw [char?, h]
  exact if_pos rfl

theorem expectChar_of_skip (h : skip s = c :: r) : expectChar c s = .ok r := by
  rw [expectChar, char?_of_skip h]

theorem isAt_of_skip (h : skip s = c :: r) : isAt d s = (c == d) := by
  rw [isAt, h]
  rfl

theorem char?_eq_none_iff : char? c s = none ↔ isAt c s = false := by
  rw [char?, isAt]
  cases skip s with
  | nil => exact ⟨fun _ => rfl, fun _ => rfl⟩
  | cons d r =>
    rw [List.head?_cons, Option.some_beq_some, beq_eq_false_iff_ne]
    simp

theorem char?_eq_none (h : skip s = d :: r) (hne : d ≠ c) : char? c s = none := by
  rw [char?_eq_none_iff, isAt_of_skip h]
  exact beq_eq_false_iff_ne.mpr hne

/-! ## Names and keywords -/

/-- A text at which a name ends. -/
def NameEnds (rest : List Char) : Prop := ∀ c ∈ rest.head?, isNamePart c = false

theorem span_append {p : Char → Bool} {t : List Char} (ht : ∀ c ∈ t, p c = true)
    (hrest : ∀ c ∈ rest.head?, p c = false) : (t ++ rest).span p = (t, rest) := by
  have htake : rest.takeWhile p = [] ∧ rest.dropWhile p = rest := by
    cases rest with
    | nil => exact ⟨rfl, rfl⟩
    | cons c r => simp [hrest c rfl]
  rw [List.span_eq_takeWhile_dropWhile, List.takeWhile_append_of_pos ht,
    List.dropWhile_append_of_pos ht, htake.1, htake.2, List.append_nil]

theorem keyword?_of_skip {k : String} {w : List Char} (h : skip s = w ++ rest)
    (hw : ∀ c ∈ w, isNamePart c = true) (hrest : NameEnds rest) :
    keyword? k s = if sameLetters w k.toList then some rest else none := by
  rw [keyword?, h, span_append hw hrest]

/-- Only what comes next matters to a keyword. -/
theorem keyword?_congr {k : String} (h : skip s = skip r) : keyword? k s = keyword? k r := by
  rw [keyword?, keyword?, h]

/-- Where no word comes next there is no keyword. -/
theorem keyword?_eq_none {k : String} (h : NameEnds (skip s)) (hk : k.toList ≠ []) :
    keyword? k s = none := by
  rw [keyword?_of_skip (List.nil_append _).symm (by simp) h, if_neg]
  cases hchars : k.toList with
  | nil => exact absurd hchars hk
  | cons c cs => exact Bool.false_ne_true

/-- A text that can be read as a name. -/
def IsName (name : String) : Prop :=
  ∃ c cs, name.toList = c :: cs ∧ isNameStart c = true ∧ ∀ d ∈ cs, isNamePart d = true

theorem IsName.isNamePart {name : String} (h : IsName name) :
    ∀ c ∈ name.toList, isNamePart c = true := by
  obtain ⟨c, cs, hname, hc, hcs⟩ := h
  rw [hname]
  exact List.forall_mem_cons.mpr ⟨isNamePart_of_isNameStart hc, hcs⟩

theorem identifier_of_skip {name : String} (hname : IsName name) (h : skip s = name.toList ++ rest)
    (hrest : NameEnds rest) : identifier s = .ok (name, rest) := by
  obtain ⟨c, cs, hcs, hc, hparts⟩ := hname
  rw [hcs, List.cons_append] at h
  rw [identifier, h]
  simp only [hc, if_true, span_append hparts hrest]
  rw [← hcs, String.ofList_toList]

/-- What is read as a name is a name, and the keywords that come next are those that it spells. -/
theorem of_identifier {name : String} (h : identifier s = .ok (name, rest)) :
    IsName name ∧ ∀ k, keyword? k s = if sameLetters name.toList k.toList then some rest else none := by
  rw [identifier] at h
  split at h
  · next c r hskip =>
    split at h
    · next hc =>
      simp only [List.span_eq_takeWhile_dropWhile, Except.ok.injEq, Prod.mk.injEq] at h
      obtain ⟨rfl, rfl⟩ := h
      refine ⟨⟨c, _, String.toList_ofList, hc, fun d hd => List.mem_takeWhile_imp hd⟩, fun k => ?_⟩
      rw [keyword?, hskip, List.span_eq_takeWhile_dropWhile, String.toList_ofList]
      simp [isNamePart_of_isNameStart hc]
    · cases h
  · cases h

/-! ## Numbers -/

theorem digitsValue_toDigits (n : Nat) : Number.digitsValue (Nat.toDigits 10 n) = n :=
  Nat.ofDigitChars_toDigits (by decide) (by decide)

theorem isDigit_of_mem_toDigits {n : Nat} : ∀ c ∈ Nat.toDigits 10 n, c.isDigit = true :=
  fun _ => Nat.isDigit_of_mem_toDigits (by decide) (by decide)

theorem exists_toDigits (n : Nat) : ∃ c r, Nat.toDigits 10 n = c :: r ∧ c.isDigit = true := by
  cases h : Nat.toDigits 10 n with
  | nil => exact absurd h Nat.toDigits_ne_nil
  | cons c r => exact ⟨c, r, rfl, isDigit_of_mem_toDigits c (h ▸ List.mem_cons_self)⟩

theorem isAtDigit_of_skip (h : skip s = c :: r) : isAtDigit s = c.isDigit := by
  rw [isAtDigit, h]
  rfl

theorem isAtName_of_skip (h : skip s = c :: r) : isAtName s = isNameStart c := by
  rw [isAtName, h]
  rfl

theorem integer_of_skip {n : Nat} (h : skip s = Nat.toDigits 10 n ++ rest) (hn : n ≤ Number.maxWord)
    (hrest : NameEnds rest) : integer s = .ok (n, rest) := by
  have hends : ∀ c ∈ rest.head?, c.isDigit = false := fun c hc =>
    Bool.eq_false_iff.mpr fun hdigit => by
      have hpart := isNamePart_of_isDigit hdigit
      rw [hrest c hc] at hpart
      cases hpart
  have hempty : (Nat.toDigits 10 n).isEmpty = false := by simp
  have hall : (Nat.toDigits 10 n).all Char.isDigit = true :=
    List.all_eq_true.mpr isDigit_of_mem_toDigits
  rw [integer, Number.spanDigits, h, span_append isDigit_of_mem_toDigits hends]
  simp [Number.readWord?, hempty, hall, digitsValue_toDigits, hn]

/-- What is read as a number of at most 64 bits is one. -/
theorem le_maxWord_of_integer {n : Nat} (h : integer s = .ok (n, rest)) : n ≤ Number.maxWord := by
  rw [integer] at h
  split at h
  next digits r hspan =>
  split at h
  · cases h
  · split at h
    · next m hm =>
      obtain ⟨rfl, rfl⟩ := Prod.mk.inj (Except.ok.inj h)
      rw [Number.readWord?] at hm
      split at hm
      · cases hm
      · dsimp only at hm
        split at hm
        · next hle => exact Option.some.inj hm ▸ hle
        · cases hm
    · cases h

/-! ## Strings -/

theorem stringBody_append {quote : Char} {t : List Char} (hquote : quote ∉ t) (hescape : '\\' ∉ t) :
    stringBody quote (t ++ quote :: rest) = .ok (t, rest) := by
  induction t with
  | nil =>
    rw [List.nil_append, stringBody.eq_def]
    exact if_pos rfl
  | cons c t ih =>
    rw [List.mem_cons, not_or] at hquote hescape
    rw [List.cons_append, stringBody.eq_def]
    dsimp only
    rw [if_neg (Ne.symm hquote.1), if_neg (Ne.symm hescape.1), ih hquote.2 hescape.2]
    rfl

end

end GraphPatterns.Parser
