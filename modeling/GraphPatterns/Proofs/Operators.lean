/-
What comes next after an operand. A gap is skipped, a word is the keyword it spells and no other, and a
symbol is not taken for a longer one. An operator ends the operands that bind more tightly (`Stops`), and
after it stands the next operand (`Joins`).
-/
import GraphPatterns.Proofs.ReadElements
import GraphPatterns.Proofs.Wordings

namespace GraphPatterns

namespace Parser

variable {s r rest g t u w x : List Char}

/-! ## Gaps and words -/

theorem not_mem_of_test {p : Char → Bool} {c : Char} {cs : List Char} (hc : p c = true)
    (hcs : cs.any p = false) : c ∉ cs :=
  fun hmem => List.any_eq_false.mp hcs c hmem hc

theorem skip_gap (h : IsGap g) (s : List Char) : skip (g ++ s) = skip s := by
  induction g with
  | nil => rfl
  | cons c g ih =>
    have hc : Text.isBlank c = true := h c (by simp)
    have hslash : c ≠ '/' := ne_of_test hc rfl
    have hskip : skip (c :: (g ++ s)) = skip (g ++ s) := by
      rw [skip]
      generalize hgap : Gap.blanks = gap
      generalize ht : c :: (g ++ s) = t
      fun_cases skipFrom gap t with
      | case3 d rest' _ _ _ =>
        rw [(List.cons.inj ht).2]
        rfl
      | case4 d rest' _ _ hblank => rw [← (List.cons.inj ht).1] at hblank; exact absurd hc hblank
      | case1 | case2 => exact absurd (List.cons.inj ht).1 hslash
      | case9 => cases ht
      | _ => cases hgap
    rw [List.cons_append, hskip]
    exact ih fun d hd => h d (by simp [hd])

theorem nameEnds_gap (h : IsGap g) (hr : NameEnds r) : NameEnds (g ++ r) := by
  cases g with
  | nil => exact hr
  | cons c g =>
    intro d hd
    have hc : Text.isBlank d = true := by
      simp at hd
      exact hd ▸ h c (by simp)
    by_contra hpart
    simp only [Bool.not_eq_false] at hpart
    rw [isBlank_of_isNamePart hpart] at hc
    cases hc

theorem nameEnds_break (h : IsBreak g) (r : List Char) : NameEnds (g ++ r) := by
  obtain ⟨hgap, hne⟩ := h
  obtain ⟨c, g, rfl⟩ := List.exists_cons_of_ne_nil hne
  have hc : IsGap [c] := fun d hd => hgap d (by simp at hd; simp [hd])
  have := nameEnds_gap hc (r := []) (by simp [NameEnds])
  simpa [NameEnds] using this

/-- A test that capitals pass is passed by a letter where its small form passes it. -/
theorem of_toLower {p : Char → Bool} (hupper : ∀ c : Char, c.isUpper = true → p c = true) {c : Char}
    (h : p c.toLower = true) : p c = true := by
  by_cases hc : c.val ≥ 'A'.val ∧ c.val ≤ 'Z'.val
  · exact hupper c (decide_eq_true hc)
  · have hsame : c.toLower = c := dif_neg hc
    rwa [hsame] at h

theorem isNameStart_of_isUpper {c : Char} (h : c.isUpper = true) : isNameStart c = true := by
  have hrange : c.val ≥ 'A'.val ∧ c.val ≤ 'Z'.val := of_decide_eq_true h
  have hcode : c.toNat < 128 := Nat.lt_of_le_of_lt (UInt32.le_iff_toNat_le.mp hrange.2) (by decide)
  have halpha : c.isAlpha = true := by
    change (c.isUpper || c.isLower) = true
    rw [h, Bool.true_or]
  rw [isNameStart, Text.isLetter, if_pos hcode, halpha, Bool.true_or]

theorem isNameStart_toLower {c : Char} (h : isNameStart c.toLower = true) : isNameStart c = true :=
  of_toLower (fun _ => isNameStart_of_isUpper) h

theorem isNamePart_toLower {c : Char} (h : isNamePart c.toLower = true) : isNamePart c = true :=
  of_toLower (fun _ hc => isNamePart_of_isNameStart (isNameStart_of_isUpper hc)) h

theorem isNamePart_of_sameLetters {k : List Char} (h : sameLetters w k = true)
    (hk : ∀ c ∈ k, isNamePart c.toLower = true) : ∀ c ∈ w, isNamePart c = true := by
  intro c hc
  have hmem : c.toLower ∈ k.map Char.toLower := by
    rw [← beq_iff_eq.mp h]
    exact List.mem_map_of_mem hc
  obtain ⟨d, hd, heq⟩ := List.mem_map.mp hmem
  exact isNamePart_toLower (heq ▸ hk d hd)

theorem sameLetters_congr {k k' : List Char} (h : sameLetters w k = true) :
    sameLetters w k' = sameLetters k k' := by
  rw [sameLetters, sameLetters, beq_iff_eq.mp h]

/-! ## Operators -/

/-- The operators that join operands of a level into a chain. -/
def operatorAt : Nat → Operator
  | 0 => word "OR" .or
  | 1 => word "XOR" .xor
  | 2 => word "AND" .and
  | 5 => sumOperator
  | 6 => productOperator
  | _ => fun _ => none

theorem operatorAt_eq_none {l : Nat} (hor : l = 0 → word "OR" .or s = none)
    (hxor : l = 1 → word "XOR" .xor s = none) (hand : l = 2 → word "AND" .and s = none)
    (hsum : l = 5 → sumOperator s = none) (hproduct : l = 6 → productOperator s = none) :
    operatorAt l s = none := by
  unfold operatorAt
  split
  · exact hor rfl
  · exact hxor rfl
  · exact hand rfl
  · exact hsum rfl
  · exact hproduct rfl
  · rfl

/-- A text at which operands of a level end: no operator of the level or a tighter one comes next. -/
structure Stops (level : Nat) (rest : List Char) : Prop where
  ends : Ends rest
  operator : ∀ l, level ≤ l → operatorAt l rest = none
  test : level ≤ 4 → keyword? "IS" rest = none
  comparator : level ≤ 4 → comparator rest = .ok none

theorem Stops.mono {level level' : Nat} (h : Stops level rest) (hle : level ≤ level') :
    Stops level' rest where
  ends := h.ends
  operator l hl := h.operator l (by omega)
  test hl := h.test (by omega)
  comparator hl := h.comparator (by omega)

section

variable {c : Char} {op : BinaryOp}

theorem symbol_eq_none {t : String} (h : skip s = c :: r) (ht : t.toList.head?.any (· != c) = true) :
    symbol t op s = none := by
  cases hchars : t.toList with
  | nil => simp [hchars] at ht
  | cons d ds =>
    have hne : d ≠ c := by simpa [hchars] using ht
    have hnone : (d :: ds).isPrefixOf? (c :: r) = none := isPrefixOf?_of_head (by simpa using hne.symm)
    rw [symbol, text?, h, hchars, hnone, Option.map_none]

theorem productOperator_eq_none (h : skip s = c :: r) (hc : c ∉ ['*', '/', '%']) :
    productOperator s = none := by
  simp only [List.mem_cons, List.not_mem_nil, or_false, not_or] at hc
  simp only [oneOf]
  rw [symbol_eq_none h (by simpa using Ne.symm hc.1), symbol_eq_none h (by simpa using Ne.symm hc.2.1),
    symbol_eq_none h (by simpa using Ne.symm hc.2.2)]
  rfl

theorem sumOperator_eq_none (h : skip s = c :: r) (hc : c ∉ ['+', '-']) : sumOperator s = none := by
  simp only [List.mem_cons, List.not_mem_nil, or_false, not_or] at hc
  simp only [oneOf]
  rw [symbol_eq_none h (by simpa using Ne.symm hc.1), symbol_eq_none h (by simpa using Ne.symm hc.2)]
  rfl

theorem comparator_of_word (h : skip s = c :: r) (hc : c ∉ ['<', '>', '!', '=']) :
    comparator s =
      match keyword? "CONTAINS" s with
      | some s => .ok (some (.contains, s))
      | none =>
        match keyword? "STARTS" s with
        | some s => (expectKeyword "WITH" s).map fun s => some (.startsWith, s)
        | none =>
          match keyword? "ENDS" s with
          | some s => (expectKeyword "WITH" s).map fun s => some (.endsWith, s)
          | none => .ok (word "IN" .isIn s) := by
  simp only [List.mem_cons, List.not_mem_nil, or_false, not_or] at hc
  obtain ⟨hlt, hgt, hbang, heq⟩ := hc
  rw [comparator]
  simp only [oneOf]
  rw [symbol_eq_none h (by simpa using Ne.symm hlt), symbol_eq_none h (by simpa using Ne.symm hgt),
    symbol_eq_none h (by simpa using Ne.symm hlt), symbol_eq_none h (by simpa using Ne.symm hbang),
    symbol_eq_none h (by simpa using Ne.symm hlt), symbol_eq_none h (by simpa using Ne.symm hgt),
    symbol_eq_none h (by simpa using Ne.symm heq)]
  rw [word]
  cases keyword? "CONTAINS" s <;> rfl

end

/-! ## Words between operands -/

/-- A keyword: letters only. -/
def IsKeyword (k : String) : Prop :=
  k.toList.isEmpty = false ∧ k.toList.all (fun c => isNamePart c.toLower) = true

instance (k : String) : Decidable (IsKeyword k) := inferInstanceAs (Decidable (_ ∧ _))

section

variable {k : String}

theorem IsKeyword.ne_nil (hk : IsKeyword k) : k.toList ≠ [] := List.isEmpty_eq_false_iff.mp hk.1

theorem isNamePart_of_keyword (hk : IsKeyword k) (hw : sameLetters w k.toList = true) :
    ∀ c ∈ w, isNamePart c = true := isNamePart_of_sameLetters hw (List.all_eq_true.mp hk.2)

theorem exists_cons_of_keyword (hk : IsKeyword k) (hw : sameLetters w k.toList = true) :
    ∃ c v, w = c :: v ∧ isNamePart c = true := by
  cases w with
  | nil =>
    have hlength := congrArg List.length (beq_iff_eq.mp hw)
    simp only [List.map_nil, List.length_nil, List.length_map] at hlength
    exact absurd (List.length_eq_zero_iff.mp hlength.symm) hk.ne_nil
  | cons c v => exact ⟨c, v, rfl, isNamePart_of_keyword hk hw c (by simp)⟩

theorem starts_of_isNamePart {c : Char} (hc : isNamePart c = true) (r : List Char) : Starts (c :: r) := by
  exact ⟨c, r, rfl, isBlank_of_isNamePart hc, not_mem_of_test hc rfl⟩

theorem skip_keyword (hk : IsKeyword k) (hw : sameLetters w k.toList = true) (hg : IsGap g)
    (x : List Char) : skip (g ++ (w ++ x)) = w ++ x := by
  obtain ⟨c, v, rfl, hc⟩ := exists_cons_of_keyword hk hw
  rw [skip_gap hg]
  exact (starts_of_isNamePart hc (v ++ x)).skip_eq

theorem keyword?_word {k' : String} (hk : IsKeyword k) (hw : sameLetters w k.toList = true)
    (hs : skip s = w ++ x) (hx : NameEnds x) :
    keyword? k' s = if sameLetters k.toList k'.toList then some x else none := by
  rw [keyword?_of_skip hs (isNamePart_of_keyword hk hw) hx, sameLetters_congr hw]

theorem keyword?_spelled (hk : IsKeyword k) (hw : sameLetters w k.toList = true)
    (hs : skip s = w ++ x) (hx : NameEnds x) : keyword? k s = some x := by
  rw [keyword?_word hk hw hs hx, sameLetters, beq_self_eq_true, if_pos rfl]

end

theorem word_eq_none {k : String} (hk : IsKeyword k) (hw : sameLetters w k.toList = true)
    (hs : skip s = w ++ x) (hx : NameEnds x) {t : String} {op : BinaryOp}
    (ht : sameLetters k.toList t.toList = false) : word t op s = none := by
  rw [word, keyword?_word hk hw hs hx, ht, if_neg Bool.false_ne_true, Option.map_none]

theorem comparator_word {k : String} (hk : IsKeyword k) (hw : sameLetters w k.toList = true)
    (hs : skip s = w ++ x) (hx : NameEnds x) :
    comparator s =
      if sameLetters k.toList "CONTAINS".toList then .ok (some (.contains, x))
      else if sameLetters k.toList "STARTS".toList then
        (expectKeyword "WITH" x).map fun s => some (.startsWith, s)
      else if sameLetters k.toList "ENDS".toList then
        (expectKeyword "WITH" x).map fun s => some (.endsWith, s)
      else .ok (if sameLetters k.toList "IN".toList then some (.isIn, x) else none) := by
  obtain ⟨c, v, rfl, hc⟩ := exists_cons_of_keyword hk hw
  rw [comparator_of_word hs (not_mem_of_test hc rfl)]
  simp only [word, keyword?_word hk hw hs hx]
  cases sameLetters k.toList "CONTAINS".toList <;> cases sameLetters k.toList "STARTS".toList <;>
    cases sameLetters k.toList "ENDS".toList <;> cases sameLetters k.toList "IN".toList <;> rfl

/-! ## Operators between operands -/

/-- A text that starts like an operand. -/
def StartsOperand (t : List Char) : Prop :=
  ∃ c r, t = c :: r ∧ (isNamePart c = true ∨ c ∈ ['(', '[', '-'])

theorem StartsOperand.starts (h : StartsOperand t) : Starts t := by
  obtain ⟨c, r, rfl, hc | hc⟩ := h
  · exact starts_of_isNamePart hc r
  · simp only [List.mem_cons, List.not_mem_nil, or_false] at hc
    rcases hc with rfl | rfl | rfl <;> exact ⟨_, r, rfl, rfl, by decide⟩

theorem StartsOperand.append (h : StartsOperand t) (r : List Char) : StartsOperand (t ++ r) := by
  obtain ⟨c, r', rfl, hc⟩ := h
  exact ⟨c, r' ++ r, rfl, hc⟩

/-- What comes after an operator symbol does not make it a longer one, nor the start of a comment. -/
theorem StartsOperand.exists_cons_gap (h : StartsOperand t) (hg : IsGap g) :
    ∃ c r, g ++ t = c :: r ∧ c ∉ ['=', '>', '/', '*'] := by
  cases g with
  | nil =>
    obtain ⟨c, r, rfl, hc | hc⟩ := h
    · exact ⟨c, r, rfl, not_mem_of_test hc rfl⟩
    · simp only [List.mem_cons, List.not_mem_nil, or_false] at hc
      rcases hc with rfl | rfl | rfl <;> exact ⟨_, r, rfl, by decide⟩
  | cons c g =>
    have hc : Text.isBlank c = true := hg c (by simp)
    exact ⟨c, g ++ t, rfl, not_mem_of_test hc rfl⟩

/-- The operator comes next in `s`, and after it `t`. -/
structure Joins (op : BinaryOp) (s t : List Char) : Prop where
  stops : Stops (op.level + 1) s
  chained : op.level ≠ 4 → ∃ x, operatorAt op.level s = some (op, x) ∧ skip x = t
  compared : op.level = 4 →
    keyword? "IS" s = none ∧ ∃ x, comparator s = .ok (some (op, x)) ∧ skip x = t

/-- What comes after a slash decides whether it starts a comment. -/
theorem skip_slash {d : Char} (hslash : d ≠ '/') (hstar : d ≠ '*') (r : List Char) :
    skip ('/' :: d :: r) = '/' :: d :: r := by
  rw [skip]
  generalize hgap : Gap.blanks = gap
  generalize ht : '/' :: d :: r = t
  fun_cases skipFrom gap t with
  | case1 => exact absurd (List.cons.inj (List.cons.inj ht).2).1 hslash
  | case2 => exact absurd (List.cons.inj (List.cons.inj ht).2).1 hstar
  | case3 _ _ _ _ hblank =>
    rw [← (List.cons.inj ht).1] at hblank
    cases hblank
  | case4 => rfl
  | case9 => cases ht
  | _ => cases hgap

theorem skip_symbol {op : BinaryOp} {w : String} {d : Char} (hw : w ∈ op.symbols)
    (hd : d ∉ ['=', '>', '/', '*']) (r : List Char) :
    skip (w.toList ++ d :: r) = w.toList ++ d :: r := by
  simp only [List.mem_cons, List.not_mem_nil, or_false, not_or] at hd
  cases op <;> simp only [BinaryOp.symbols, List.mem_cons, List.not_mem_nil, or_false] at hw
  case div =>
    rw [hw]
    exact skip_slash hd.2.2.1 hd.2.2.2 r
  case ne => rcases hw with rfl | rfl <;> exact skip_cons rfl (by decide)
  all_goals
    rw [hw]
    exact skip_cons rfl (by decide)

theorem exists_cons_of_symbol {op : BinaryOp} {w : String} (hw : w ∈ op.symbols) :
    ∃ c v, w.toList = c :: v ∧ isNamePart c = false ∧ c ≠ '.' ∧ 4 ≤ op.level ∧
      (op.level = 4 → c ∉ ['+', '-']) ∧ (op.level ≤ 5 → c ∉ ['*', '/', '%']) := by
  cases op <;> simp only [BinaryOp.symbols, List.mem_cons, List.not_mem_nil, or_false] at hw
  case ne => rcases hw with rfl | rfl <;> exact ⟨_, _, rfl, rfl, by decide⟩
  all_goals
    subst hw
    exact ⟨_, _, rfl, rfl, by decide⟩

theorem operatorAt_symbol {op : BinaryOp} {w : String} {d : Char} (hw : w ∈ op.symbols)
    (hlevel : op.level ≠ 4) (hs : skip s = w.toList ++ d :: r) :
    operatorAt op.level s = some (op, d :: r) := by
  cases op <;> simp only [BinaryOp.symbols, List.mem_cons, List.not_mem_nil, or_false] at hw
  case add | sub | mul | div | mod =>
    subst hw
    simp only [operatorAt, BinaryOp.level, oneOf, symbol, text?, hs]
    rfl
  all_goals exact absurd rfl hlevel

theorem comparator_symbol {op : BinaryOp} {w : String} {d : Char} (hw : w ∈ op.symbols)
    (hlevel : op.level = 4) (hd : d ∉ ['=', '>', '/', '*']) (hs : skip s = w.toList ++ d :: r) :
    comparator s = .ok (some (op, d :: r)) := by
  simp only [List.mem_cons, List.not_mem_nil, or_false, not_or] at hd
  have heq : ('=' == d) = false := beq_eq_false_iff_ne.mpr (Ne.symm hd.1)
  have hgt : ('>' == d) = false := beq_eq_false_iff_ne.mpr (Ne.symm hd.2.1)
  rw [comparator]
  simp only [oneOf, symbol, text?, hs]
  cases op <;> simp only [BinaryOp.symbols, List.mem_cons, List.not_mem_nil, or_false] at hw
  case lt | gt =>
    subst hw
    simp [List.isPrefixOf?, heq, hgt]
  case ne => rcases hw with rfl | rfl <;> rfl
  case eq | le | ge =>
    subst hw
    rfl
  all_goals cases hlevel

theorem joins_symbol {op : BinaryOp} {w : String} {g' : List Char} (hw : w ∈ op.symbols)
    (hg : IsGap g) (hg' : IsGap g') (ht : StartsOperand t) :
    Joins op (g ++ (w.toList ++ g') ++ t) t := by
  obtain ⟨d, r, hnext, hd⟩ := ht.exists_cons_gap hg'
  have htext : g ++ (w.toList ++ g') ++ t = g ++ (w.toList ++ d :: r) := by simp [← hnext]
  have hskip : skip (d :: r) = t := by rw [← hnext, skip_gap hg', ht.starts.skip_eq]
  have hs : skip (g ++ (w.toList ++ d :: r)) = w.toList ++ d :: r := by
    rw [skip_gap hg, skip_symbol hw hd]
  obtain ⟨c, v, hv, hpart, hdot, hlevel, hsum, hproduct⟩ := exists_cons_of_symbol hw
  have hc : skip (g ++ (w.toList ++ d :: r)) = c :: (v ++ d :: r) := by rw [hs, hv, List.cons_append]
  have hname : NameEnds (g ++ (w.toList ++ d :: r)) := by
    refine nameEnds_gap hg ?_
    rw [hv]
    intro c' hc'
    cases hc'
    exact hpart
  rw [htext]
  refine ⟨⟨⟨hname, by simpa [isAt_of_skip hc] using hdot⟩, ?_, by omega, by omega⟩,
    fun hlevel => ⟨d :: r, operatorAt_symbol hw hlevel hs, hskip⟩,
    fun hlevel => ⟨keyword?_of_symbol hc hpart (by decide), d :: r, comparator_symbol hw hlevel hd hs, hskip⟩⟩
  intro l hl
  exact operatorAt_eq_none (by omega) (by omega) (by omega)
    (fun _ => sumOperator_eq_none hc (hsum (by omega)))
    (fun _ => productOperator_eq_none hc (hproduct (by omega)))

/-! ## Words between operands -/

/-- The words that join or test operands, each with the level of what they make. -/
def joiningWords : List (String × Nat) :=
  [("OR", 0), ("XOR", 1), ("AND", 2), ("IS", 4), ("CONTAINS", 4), ("STARTS", 4), ("ENDS", 4), ("IN", 4)]

/-- Operands of a level end at a word that joins or tests only looser ones. -/
theorem stops_of_word {k : String} {level : Nat} (hk : IsKeyword k) (hw : sameLetters w k.toList = true)
    (hg : IsBreak g) (hx : NameEnds x)
    (hlevel : ∀ p ∈ joiningWords, level ≤ p.2 → sameLetters k.toList p.1.toList = false) :
    Stops level (g ++ (w ++ x)) := by
  have hs : skip (g ++ (w ++ x)) = w ++ x := skip_keyword hk hw hg.gap x
  simp only [joiningWords, List.forall_mem_cons, List.not_mem_nil, false_imp_iff, implies_true,
    and_true] at hlevel
  obtain ⟨hor, hxor, hand, his, hcontains, hstarts, hends, hin⟩ := hlevel
  obtain ⟨c, v, rfl, hc⟩ := exists_cons_of_keyword hk hw
  refine ⟨⟨nameEnds_break hg _, ?_⟩, ?_, ?_, ?_⟩
  · rw [isAt_of_skip hs]
    exact beq_eq_false_iff_ne.mpr (ne_of_test hc rfl)
  · intro l hl
    refine operatorAt_eq_none ?_ ?_ ?_ ?_ ?_
    · exact fun h => word_eq_none hk hw hs hx (hor (by omega))
    · exact fun h => word_eq_none hk hw hs hx (hxor (by omega))
    · exact fun h => word_eq_none hk hw hs hx (hand (by omega))
    · exact fun _ => sumOperator_eq_none hs (not_mem_of_test hc rfl)
    · exact fun _ => productOperator_eq_none hs (not_mem_of_test hc rfl)
  · intro hlevel
    rw [keyword?_word hk hw hs hx, his hlevel]
    rfl
  · intro hlevel
    rw [comparator_word hk hw hs hx, hcontains hlevel, hstarts hlevel, hends hlevel, hin hlevel]
    rfl

theorem joins_word {op : BinaryOp} {k : String} (hop : op.words = [k]) (hw : sameLetters w k.toList = true)
    {g' : List Char} (hg : IsBreak g) (hg' : IsBreak g') (ht : StartsOperand t) :
    Joins op (g ++ (w ++ (g' ++ t))) t := by
  have hx : NameEnds (g' ++ t) := nameEnds_break hg' t
  have hskip : skip (g' ++ t) = t := by rw [skip_gap hg'.gap, ht.starts.skip_eq]
  have hk : IsKeyword k := by cases op <;> cases hop <;> decide
  have hs : skip (g ++ (w ++ (g' ++ t))) = w ++ (g' ++ t) := skip_keyword hk hw hg.gap _
  refine ⟨stops_of_word hk hw hg hx (by cases op <;> cases hop <;> decide), ?_, ?_⟩
  · intro hlevel
    refine ⟨g' ++ t, ?_, hskip⟩
    have hspelled := keyword?_spelled hk hw hs hx
    cases op <;> cases hop <;> first
      | exact absurd rfl hlevel
      | rw [BinaryOp.level, operatorAt, word, hspelled, Option.map_some]
  · intro hlevel
    refine ⟨?_, g' ++ t, ?_, hskip⟩
    · rw [keyword?_word hk hw hs hx]
      cases op <;> cases hop <;> rfl
    · rw [comparator_word hk hw hs hx]
      cases op <;> cases hop <;> first | rfl | cases hlevel

theorem joins_pair {op : BinaryOp} {k : String} (hop : op.words = [k, "WITH"])
    (hw : sameLetters w k.toList = true) {w' g' g'' : List Char} (hw' : sameLetters w' "WITH".toList = true)
    (hg : IsBreak g) (hg' : IsBreak g') (hg'' : IsBreak g'') (ht : StartsOperand t) :
    Joins op (g ++ (w ++ (g' ++ (w' ++ (g'' ++ t))))) t := by
  have hx : NameEnds (g' ++ (w' ++ (g'' ++ t))) := nameEnds_break hg' _
  have hskip : skip (g'' ++ t) = t := by rw [skip_gap hg''.gap, ht.starts.skip_eq]
  have hk : IsKeyword k := by cases op <;> cases hop <;> decide
  have hs := skip_keyword hk hw hg.gap (g' ++ (w' ++ (g'' ++ t)))
  have hwith : IsKeyword "WITH" := by decide
  have hexpect : expectKeyword "WITH" (g' ++ (w' ++ (g'' ++ t))) = .ok (g'' ++ t) := by
    rw [expectKeyword,
      keyword?_spelled hwith hw' (skip_keyword hwith hw' hg'.gap _) (nameEnds_break hg'' t)]
  refine ⟨stops_of_word hk hw hg hx (by cases op <;> cases hop <;> decide), ?_, ?_⟩
  · intro hlevel
    cases op <;> cases hop <;> exact absurd rfl hlevel
  · intro hlevel
    refine ⟨?_, g'' ++ t, ?_, hskip⟩
    · rw [keyword?_word hk hw hs hx]
      cases op <;> cases hop <;> rfl
    · rw [comparator_word hk hw hs hx, hexpect]
      cases op <;> cases hop <;> rfl

theorem joins_words {op : BinaryOp} {u : List Char} (hop : op.words ≠ []) (hu : Words op.words u)
    (hg : IsBreak g) (ht : StartsOperand t) : Joins op (u ++ g ++ t) t := by
  cases hwords : op.words with
  | nil => exact absurd hwords hop
  | cons k ks =>
    rw [hwords] at hu
    obtain _ | ⟨hg₀, hw, hu⟩ := hu
    cases ks with
    | nil =>
      cases hu
      simpa using joins_word hwords hw hg₀ hg ht
    | cons k' ks =>
      have htail : k' = "WITH" ∧ ks = [] := by cases op <;> cases hwords <;> exact ⟨rfl, rfl⟩
      obtain ⟨rfl, rfl⟩ := htail
      obtain _ | ⟨hg₁, hw', hu⟩ := hu
      cases hu
      simpa using joins_pair hwords hw hw' hg₀ hg₁ hg ht

theorem joins_between {op : BinaryOp} {u : List Char} (hu : op.Between u) (ht : StartsOperand t) :
    Joins op (u ++ t) t := by
  cases hu with
  | symbol hw hg hg' => exact joins_symbol hw hg hg' ht
  | words hop hu hg => exact joins_words hop hu hg ht

end Parser

end GraphPatterns
