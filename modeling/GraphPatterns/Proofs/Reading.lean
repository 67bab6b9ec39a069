/-
Parsers that read a text back (`Reads`). What a parser reads it reads after any gap, and before any text
that does not go on with it. Repetitions read the texts of their items with separators between them.
-/
import GraphPatterns.Proofs.Tokens

namespace GraphPatterns.Parser

/-- A text that starts where skipping stops, and not with a character that separates or closes. -/
def Starts (t : List Char) : Prop :=
  ∃ c r, t = c :: r ∧ Text.isBlank c = false ∧ c ∉ ['/', '=', ',', ')', ']', '\x7d']

/-- A text that is at its end, or goes on with a character that separates or closes. -/
def Closes (rest : List Char) : Prop := ∀ c ∈ rest.head?, c ∈ [',', ')', ']', '\x7d']

/-- A text at which a name, a number or a property ends. -/
def Ends (rest : List Char) : Prop := NameEnds rest ∧ isAt '.' rest = false

/-- The parser reads the text as `a`: after any gap, and before any text of a kind. -/
structure Reads {α : Type} (p : Parse α) (before : List Char → Prop) (t : List Char) (a : α) :
    Prop where
  starts : Starts t
  run {s rest : List Char} : skip s = t ++ rest → before rest → p s = .ok (a, rest)

section

variable {α β : Type} {p : Parse α} {before before' : List Char → Prop} {s t rest : List Char} {a : α}

theorem Starts.skip_append (h : Starts t) (rest : List Char) : skip (t ++ rest) = t ++ rest := by
  obtain ⟨c, r, rfl, hblank, hc⟩ := h
  exact skip_cons hblank fun heq => hc (heq ▸ List.mem_cons_self)

theorem Starts.skip_eq (h : Starts t) : skip t = t := by
  have := h.skip_append []
  rwa [List.append_nil] at this

theorem Starts.append (h : Starts t) (r : List Char) : Starts (t ++ r) := by
  obtain ⟨c, r', rfl, hc⟩ := h
  exact ⟨c, r' ++ r, rfl, hc⟩

theorem IsName.starts {name : String} (h : IsName name) : Starts name.toList := by
  obtain ⟨c, cs, hcs, hc, -⟩ := h
  have hpart := isNamePart_of_isNameStart hc
  refine ⟨c, cs, hcs, isBlank_of_isNamePart hpart, ?_⟩
  simp only [List.mem_cons, List.not_mem_nil, or_false, not_or]
  exact ⟨ne_of_test hpart rfl, ne_of_test hpart rfl, ne_of_test hpart rfl, ne_of_test hpart rfl,
    ne_of_test hpart rfl, ne_of_test hpart rfl⟩

theorem starts_of_isDigit {c : Char} (hc : c.isDigit = true) (r : List Char) : Starts (c :: r) := by
  refine ⟨c, r, rfl, isBlank_of_isNamePart (isNamePart_of_isDigit hc), ?_⟩
  simp only [List.mem_cons, List.not_mem_nil, or_false, not_or]
  exact ⟨ne_of_test hc rfl, ne_of_test hc rfl, ne_of_test hc rfl, ne_of_test hc rfl,
    ne_of_test hc rfl, ne_of_test hc rfl⟩

theorem starts_toDigits (n : Nat) : Starts (Nat.toDigits 10 n) := by
  obtain ⟨c, r, hdigits, hc⟩ := exists_toDigits n
  rw [hdigits]
  exact starts_of_isDigit hc r

theorem Starts.length_pos (h : Starts t) : 0 < t.length := by
  obtain ⟨c, r, rfl, -⟩ := h
  exact Nat.zero_lt_succ _

theorem Starts.isAt (h : Starts t) {c : Char} (hc : c ∈ ['=', ',', ')', ']', '\x7d'])
    (hs : skip s = t ++ rest) : isAt c s = false := by
  obtain ⟨d, r, rfl, -, hd⟩ := h
  rw [isAt_of_skip hs]
  exact beq_eq_false_iff_ne.mpr fun heq => hd (heq ▸ List.mem_cons_of_mem _ hc)

theorem Starts.isAt_space (h : Starts t) {c : Char} (hc : c ∈ ['=', ',', ')', ']', '\x7d']) :
    Parser.isAt c (' ' :: t) = false :=
  h.isAt hc ((skip_space t).trans h.skip_eq |>.trans (List.append_nil t).symm)

theorem Closes.of_cons {c : Char} (hc : c ∈ [',', ')', ']', '\x7d']) (r : List Char) :
    Closes (c :: r) := fun d hd => by
  rw [List.head?_cons, Option.mem_some_iff] at hd
  exact hd ▸ hc

theorem Closes.cases (h : Closes rest) :
    rest = [] ∨ ∃ r, rest = ',' :: r ∨ rest = ')' :: r ∨ rest = ']' :: r ∨ rest = '\x7d' :: r := by
  cases rest with
  | nil => exact .inl rfl
  | cons c r =>
    have hc := h c rfl
    simp only [List.mem_cons, List.not_mem_nil, or_false] at hc
    rcases hc with rfl | rfl | rfl | rfl <;> exact .inr ⟨r, by simp⟩

theorem Closes.nameEnds (h : Closes rest) : NameEnds rest := fun c hc => by
  have hmem := h c hc
  simp only [List.mem_cons, List.not_mem_nil, or_false] at hmem
  rcases hmem with rfl | rfl | rfl | rfl <;> rfl

theorem Closes.ends (h : Closes rest) : Ends rest := by
  refine ⟨h.nameEnds, ?_⟩
  rcases h.cases with rfl | ⟨r, rfl | rfl | rfl | rfl⟩ <;> rfl

namespace Reads

theorem mono (h : Reads p before t a) (himp : ∀ rest, before' rest → before rest) :
    Reads p before' t a :=
  ⟨h.starts, fun hs hrest => h.run hs (himp _ hrest)⟩

theorem map (h : Reads p before t a) (f : α → β) :
    Reads (fun s => (p s).map fun (a, s) => (f a, s)) before t (f a) :=
  ⟨h.starts, fun hs hrest => by rw [h.run hs hrest]; rfl⟩

theorem run_append (h : Reads p before t a) (hrest : before rest) : p (t ++ rest) = .ok (a, rest) :=
  h.run (h.starts.skip_append rest) hrest

theorem run_space (h : Reads p before t a) (hrest : before rest) :
    p (' ' :: (t ++ rest)) = .ok (a, rest) :=
  h.run (h.starts.skip_append rest) hrest

end Reads

/-! ## Repetition -/

theorem ok_bind {ε : Type} (a : α) (f : α → Except ε β) : (Except.ok a >>= f) = f a := rfl

theorem ok_map {ε : Type} (a : α) (f : α → β) : (Except.ok a : Except ε α).map f = .ok (f a) := rfl

theorem exists_cons_cons {l : List α} (h : 2 ≤ l.length) : ∃ a b t, l = a :: b :: t := by
  obtain _ | ⟨a, _ | ⟨b, t⟩⟩ := l
  · cases h
  · exact absurd h (Nat.not_succ_le_self 1)
  · exact ⟨a, b, t, rfl⟩

theorem intercalate_cons (sep t : List Char) (ts : List (List Char)) :
    sep.intercalate (t :: ts) = t ++ ts.flatMap (sep ++ ·) := by
  induction ts generalizing t with
  | nil => simp [List.intercalate]
  | cons u us ih =>
    rw [List.intercalate_cons_cons, ih, List.flatMap_cons, List.append_assoc, List.append_assoc]

theorem intercalate_append (sep : List Char) {ts us : List (List Char)} (hts : ts ≠ []) (hus : us ≠ []) :
    sep.intercalate (ts ++ us) = sep.intercalate ts ++ (sep ++ sep.intercalate us) := by
  obtain ⟨t, ts, rfl⟩ := List.exists_cons_of_ne_nil hts
  obtain ⟨u, us, rfl⟩ := List.exists_cons_of_ne_nil hus
  simp only [List.cons_append, intercalate_cons, List.flatMap_append, List.flatMap_cons,
    List.append_assoc]

theorem intercalate_flatten (sep : List Char) {tss : List (List (List Char))} (h : [] ∉ tss) :
    sep.intercalate tss.flatten = sep.intercalate (tss.map sep.intercalate) := by
  induction tss with
  | nil => rfl
  | cons ts tss ih =>
    rw [List.mem_cons, not_or] at h
    cases tss with
    | nil => rw [List.flatten_singleton, List.map_singleton, List.intercalate_singleton]
    | cons us tss =>
      have hus : us ≠ [] := fun heq => h.2 (heq ▸ List.mem_cons_self)
      have hflatten : (us :: tss).flatten ≠ [] := by
        rw [List.flatten_cons]
        exact List.append_ne_nil_of_left_ne_nil hus _
      rw [List.flatten_cons, intercalate_append sep (Ne.symm h.1) hflatten, ih h.2, List.map_cons,
        List.map_cons, List.map_cons, List.intercalate_cons_cons, List.append_assoc]

theorem length_le_intercalate (sep : List Char) {ts : List (List Char)} (h : t ∈ ts) :
    t.length ≤ (sep.intercalate ts).length := by
  cases ts with
  | nil => cases h
  | cons u us =>
    rw [intercalate_cons, List.length_append]
    rcases List.mem_cons.mp h with rfl | h
    · exact Nat.le_add_right _ _
    · refine Nat.le_add_left_of_le ?_
      exact ((List.suffix_append sep t).sublist.trans
        (List.sublist_flatten_of_mem (List.mem_map_of_mem h))).length_le

section

variable {separator : List Char → Option (List Char)} {item : Parse α} {sep : List Char}
  {text : β → List Char} {value : β → α} {items : List β}

theorem length_le_flatMap (hitems : ∀ b ∈ items, Starts (text b)) :
    items.length ≤ (items.flatMap fun b => sep ++ text b).length := by
  induction items with
  | nil => exact Nat.le_refl 0
  | cons b items ih =>
    rw [List.forall_mem_cons] at hitems
    have hrest := ih hitems.2
    have hfirst := hitems.1.length_pos
    simp only [List.flatMap_cons, List.length_append, List.length_cons]
    omega

theorem length_items_le (sep : List Char) (hitems : ∀ b ∈ items, Starts (text b)) :
    items.length ≤ (sep.intercalate (items.map text)).length := by
  cases items with
  | nil => exact Nat.zero_le _
  | cons b items =>
    rw [List.forall_mem_cons] at hitems
    have hfirst := hitems.1.length_pos
    have hrest : items.length ≤ (items.flatMap fun b => sep ++ text b).length :=
      length_le_flatMap hitems.2
    rw [List.map_cons, intercalate_cons, List.flatMap_map, List.length_append, List.length_cons]
    omega

theorem more_append (hsep : ∀ r, ∃ s, separator (sep ++ r) = some s ∧ skip s = skip r)
    (hbetween : ∀ r, before (sep ++ r)) (hitems : ∀ b ∈ items, Reads item before (text b) (value b))
    (hend : separator rest = none) (hrest : before rest) {bound : Nat} (hbound : items.length ≤ bound) :
    more separator item bound (items.flatMap (fun b => sep ++ text b) ++ rest) =
      .ok (items.map value, rest) := by
  induction items generalizing bound with
  | nil =>
    cases bound with
    | zero => rfl
    | succ bound => rw [List.flatMap_nil, List.nil_append, more, hend]; rfl
  | cons b items ih =>
    obtain ⟨bound, rfl⟩ := Nat.exists_eq_add_one_of_ne_zero (Nat.ne_zero_of_lt hbound)
    rw [List.forall_mem_cons] at hitems
    obtain ⟨s, hs, hskip⟩ := hsep (text b ++ (items.flatMap (fun b => sep ++ text b) ++ rest))
    have hnext : before (items.flatMap (fun b => sep ++ text b) ++ rest) := by
      cases items with
      | nil => exact hrest
      | cons b items => simpa only [List.flatMap_cons, List.append_assoc] using hbetween _
    have hitem := hitems.1.run (hskip.trans (hitems.1.starts.skip_append _)) hnext
    rw [List.flatMap_cons, List.append_assoc, List.append_assoc, more, hs]
    simp only [hitem, ok_bind, ih hitems.2 (Nat.le_of_succ_le_succ hbound)]
    rfl

theorem reads_separated (separator : List Char → Option (List Char)) (sep : List Char)
    (hsep : ∀ r, ∃ s, separator (sep ++ r) = some s ∧ skip s = skip r)
    (hbetween : ∀ r, before (sep ++ r)) (hnonempty : items ≠ [])
    (hitems : ∀ b ∈ items, Reads item before (text b) (value b)) :
    Reads (separated separator item) (fun rest => before rest ∧ separator rest = none)
      (sep.intercalate (items.map text)) (items.map value) := by
  obtain ⟨b, items, rfl⟩ := List.exists_cons_of_ne_nil hnonempty
  rw [List.forall_mem_cons] at hitems
  rw [List.map_cons, intercalate_cons, List.flatMap_map]
  refine ⟨hitems.1.starts.append _, fun {s rest} hs ⟨hrest, hend⟩ => ?_⟩
  have hnext : before (items.flatMap (fun b => sep ++ text b) ++ rest) := by
    cases items with
    | nil => exact hrest
    | cons b items => simpa only [List.flatMap_cons, List.append_assoc] using hbetween _
  have hbound : items.length ≤ (items.flatMap (fun b => sep ++ text b) ++ rest).length := by
    have hlength : items.length ≤ (items.flatMap fun b => sep ++ text b).length :=
      length_le_flatMap fun b hb => (hitems.2 b hb).starts
    rw [List.length_append]
    omega
  rw [List.append_assoc] at hs
  rw [separated, hitems.1.run hs hnext, ok_bind]
  simp only [more_append hsep hbetween hitems.2 hend hrest hbound, ok_bind]
  rfl

theorem itemsUntil_of_skip {close : Char} (hclose : close ∈ [',', ')', ']', '\x7d']) (hne : close ≠ ',')
    (hbefore : ∀ {rest}, Closes rest → before rest)
    (hitems : ∀ b ∈ items, Reads item before (text b) (value b)) {bound : Nat}
    (hbound : items.length ≤ bound)
    (hs : skip s = [',', ' '].intercalate (items.map text) ++ close :: rest) :
    ∃ s', itemsUntil close item bound s = .ok (items.map value, s') ∧ skip s' = close :: rest := by
  induction items generalizing bound s with
  | nil =>
    refine ⟨s, ?_, hs⟩
    cases bound with
    | zero => rfl
    | succ bound =>
      rw [itemsUntil, isAt_of_skip hs, beq_self_eq_true]
      rfl
  | cons b items ih =>
    obtain ⟨bound, rfl⟩ := Nat.exists_eq_add_one_of_ne_zero (Nat.ne_zero_of_lt hbound)
    rw [List.forall_mem_cons] at hitems
    have hsolid : skip (close :: rest) = close :: rest := by
      simp only [List.mem_cons, List.not_mem_nil, or_false] at hclose
      rcases hclose with rfl | rfl | rfl | rfl <;> rfl
    rw [List.map_cons, intercalate_cons, List.append_assoc] at hs
    rw [itemsUntil, hitems.1.starts.isAt (List.mem_cons_of_mem _ hclose) hs]
    cases items with
    | nil =>
      have hitem := hitems.1.run hs (hbefore (Closes.of_cons hclose rest))
      refine ⟨close :: rest, ?_, hsolid⟩
      rw [if_neg Bool.false_ne_true, hitem, ok_bind, List.map_nil, List.flatMap_nil, List.nil_append]
      dsimp only
      rw [char?_eq_none hsolid hne]
      rfl
    | cons b' items =>
      have hnext : Closes ((List.map text (b' :: items)).flatMap ([',', ' '] ++ ·) ++ close :: rest) :=
        Closes.of_cons (by simp) _
      have hitem := hitems.1.run hs (hbefore hnext)
      have hskip : skip (' ' :: ([',', ' '].intercalate ((b' :: items).map text) ++ close :: rest)) =
          [',', ' '].intercalate ((b' :: items).map text) ++ close :: rest := by
        rw [List.forall_mem_cons] at hitems
        rw [List.map_cons, intercalate_cons, List.append_assoc, skip_space]
        exact hitems.2.1.starts.skip_append _
      obtain ⟨s', hrun, hs'⟩ := ih hitems.2 (Nat.le_of_succ_le_succ hbound) hskip
      refine ⟨s', ?_, hs'⟩
      rw [if_neg Bool.false_ne_true, hitem, ok_bind]
      have hcomma : char? ',' ((List.map text (b' :: items)).flatMap ([',', ' '] ++ ·) ++ close :: rest) =
          some (' ' :: ([',', ' '].intercalate ((b' :: items).map text) ++ close :: rest)) := by
        rw [List.map_cons, intercalate_cons, List.flatMap_cons, List.append_assoc, List.append_assoc,
          List.append_assoc]
        rfl
      simp only [hcomma, hrun, ok_bind]
      rfl

theorem itemsUntil_bind {close : Char} (hclose : close ∈ [')', ']', '\x7d'])
    (hbefore : ∀ {rest}, Closes rest → before rest)
    (hitems : ∀ b ∈ items, Reads item before (text b) (value b)) {γ : Type}
    (f : List α × List Char → Except Failure γ) {s : List Char} (rest : List Char)
    (hs : s = [',', ' '].intercalate (items.map text) ++ close :: rest) :
    (itemsUntil close item (s.length + 1) s >>= fun r => do
      let s ← expectChar close r.2
      f (r.1, s)) = f (items.map value, rest) := by
  have hstarts : ∀ b ∈ items, Starts (text b) := fun b hb => (hitems b hb).starts
  have hne : close ≠ ',' := by
    rintro rfl
    exact absurd hclose (by decide)
  have hclose' : close ∈ [',', ')', ']', '\x7d'] := List.mem_cons_of_mem _ hclose
  have hbound : items.length ≤ s.length + 1 := by
    have := length_items_le [',', ' '] hstarts
    rw [hs, List.length_append]
    omega
  have hskip : skip s = [',', ' '].intercalate (items.map text) ++ close :: rest := by
    rw [hs]
    cases items with
    | nil =>
      simp only [List.mem_cons, List.not_mem_nil, or_false] at hclose
      rcases hclose with rfl | rfl | rfl <;> rfl
    | cons b items =>
      rw [List.map_cons, intercalate_cons, List.append_assoc]
      exact (hstarts b List.mem_cons_self).skip_append _
  obtain ⟨s', hrun, hs'⟩ := itemsUntil_of_skip hclose' hne hbefore hitems hbound hskip
  rw [hrun, ok_bind, expectChar_of_skip hs', ok_bind]

end

end

end GraphPatterns.Parser
