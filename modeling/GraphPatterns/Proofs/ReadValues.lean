/-
Values are read back. The text of a value is read as the value if its doubles have fractions and its texts
have neither quotes nor backslashes (`Value.reads`).
-/
import GraphPatterns.Proofs.NumberTexts

namespace GraphPatterns

open GraphPatterns.Parser

/-! ## Values -/

namespace Value

mutual

/-- A value whose text says what it is: it has no doubles, and no single quote or backslash in a text. -/
def Printable : Value → Prop
  | .real _ => False
  | .text s => '\'' ∉ s.toList ∧ '\\' ∉ s.toList
  | .list items => AllPrintable items
  | _ => True

def AllPrintable : List Value → Prop
  | [] => True
  | v :: rest => Printable v ∧ AllPrintable rest

end

mutual

/-- A value whose text is read as the value: the doubles in it have fractions, and its texts have neither
single quotes nor backslashes. -/
def Legible : Value → Prop
  | .real x => Number.HasFraction x
  | .text s => '\'' ∉ s.toList ∧ '\\' ∉ s.toList
  | .list items => AllLegible items
  | _ => True

def AllLegible : List Value → Prop
  | [] => True
  | v :: rest => Legible v ∧ AllLegible rest

end

mutual

theorem Printable.legible {v : Value} (hv : v.Printable) : v.Legible := by
  cases v with
  | real x => exact hv.elim
  | list items => exact AllPrintable.legible hv
  | _ => exact hv

theorem AllPrintable.legible {items : List Value} (hitems : AllPrintable items) : AllLegible items := by
  cases items with
  | nil => trivial
  | cons v items => exact ⟨Printable.legible hitems.1, AllPrintable.legible hitems.2⟩

end

theorem renderList_eq (items : List Value) : renderList items = items.map render := by
  induction items with
  | nil => rfl
  | cons v items ih => rw [renderList, ih, List.map_cons]

theorem toList_render_text (t : String) :
    (render (.text t)).toList = '\'' :: (t.toList ++ ['\'']) := by
  rw [render, String.toList_append, String.toList_append, List.append_assoc]
  rfl

theorem toList_render_list (items : List Value) :
    (render (.list items)).toList =
      '[' :: ([',', ' '].intercalate (items.map fun v => v.render.toList) ++ [']']) := by
  rw [render, renderList_eq, String.toList_append, String.toList_append, String.toList_intercalate,
    List.map_map]
  rfl

end Value

namespace Parser

variable {s rest : List Char}

theorem string?_of_skip {t : String} (h : skip s = '\'' :: (t.toList ++ '\'' :: rest))
    (hquote : '\'' ∉ t.toList) (hescape : '\\' ∉ t.toList) : string? s = some (.ok (t, rest)) := by
  rw [string?, h]
  dsimp only
  rw [if_pos (.inr rfl), stringBody_append hquote hescape, ok_map, String.ofList_toList]

theorem string?_eq_none {c : Char} {r : List Char} (h : skip s = c :: r) (hc : c ≠ '"')
    (hc' : c ≠ '\'') : string? s = none := by
  rw [string?, h]
  exact if_neg (not_or.mpr ⟨hc, hc'⟩)

theorem literal?_of_skip {w : List Char} (h : skip s = w ++ rest)
    (hw : ∀ c ∈ w, isNamePart c = true) (hrest : NameEnds rest) :
    literal? s =
      if sameLetters w "true".toList then some (.boolean true, rest)
      else if sameLetters w "false".toList then some (.boolean false, rest)
      else if sameLetters w "null".toList then some (.null, rest) else none := by
  simp only [literal?, keyword?_of_skip h hw hrest]
  cases sameLetters w "true".toList <;> cases sameLetters w "false".toList <;>
    cases sameLetters w "null".toList <;> rfl

theorem literal?_render (v : Value) (hv : v = .null ∨ ∃ b, v = .boolean b)
    (h : skip s = v.render.toList ++ rest) (hrest : NameEnds rest) :
    literal? s = some (v, rest) ∧ ∃ c r, skip s = c :: r ∧ isNameStart c = true := by
  rcases hv with rfl | ⟨b, rfl⟩
  · exact ⟨literal?_of_skip h (List.all_eq_true.mp rfl) hrest, 'N', _, h, rfl⟩
  · cases b
    · exact ⟨literal?_of_skip h (List.all_eq_true.mp rfl) hrest, 'f', _, h, rfl⟩
    · exact ⟨literal?_of_skip h (List.all_eq_true.mp rfl) hrest, 't', _, h, rfl⟩

theorem valueWithin_word {depth : Nat} {v : Value} {c : Char} {r : List Char}
    (hs : skip s = c :: r) (hc : isNameStart c = true) (h : literal? s = some (v, rest)) :
    valueWithin (depth + 1) s = .ok (v, rest) := by
  have hpart := isNamePart_of_isNameStart hc
  rw [valueWithin, string?_eq_none hs (ne_of_test hpart rfl) (ne_of_test hpart rfl)]
  simp only [isAtDigit_of_skip hs, isDigit_of_isNameStart hc, isAt_of_skip hs,
    char?_eq_none hs (ne_of_test hpart (d := '[') rfl),
    beq_eq_false_iff_ne.mpr (ne_of_test hpart (d := '-') rfl), h]
  rfl

theorem valueWithin_number {depth : Nat} {c : Char} {r : List Char} (hs : skip s = c :: r)
    (hc : c.isDigit = true ∨ c = '-') : valueWithin (depth + 1) s = number s := by
  have hquotes : c ≠ '"' ∧ c ≠ '\'' := by
    rcases hc with hc | rfl
    · exact ⟨ne_of_test hc rfl, ne_of_test hc rfl⟩
    · decide
  rw [valueWithin, string?_eq_none hs hquotes.1 hquotes.2]
  dsimp only
  rw [isAtDigit_of_skip hs, isAt_of_skip hs, if_pos (by simpa using hc)]

end Parser

namespace Value

theorem starts_render (v : Value) : Starts v.render.toList := by
  cases v with
  | null => exact ⟨'N', _, rfl, rfl, by decide⟩
  | boolean b => cases b <;> exact ⟨_, _, rfl, rfl, by decide⟩
  | integer i =>
    obtain ⟨c, r, htext, hc⟩ := exists_toList_integer i
    rw [render, htext]
    exact starts_signed hc
  | real x => exact starts_renderFloat x
  | text t => exact ⟨'\'', _, toList_render_text t, rfl, by decide⟩
  | list items => exact ⟨'[', _, toList_render_list items, rfl, by decide⟩

/-- The text of a list is longer than those of its items. -/
theorem length_item_le {items : List Value} {depth : Nat}
    (hdepth : (render (.list items)).toList.length ≤ depth + 1) :
    ∀ v ∈ items, v.render.toList.length ≤ depth := by
  intro v hv
  have hle := length_le_intercalate [',', ' '] (List.mem_map.mpr ⟨v, hv, rfl⟩ :
    v.render.toList ∈ items.map fun v => v.render.toList)
  rw [toList_render_list, List.length_cons, List.length_append] at hdepth
  omega

mutual

/-- A legible value is read back from its text. -/
theorem reads (v : Value) (hv : v.Legible) {depth : Nat} (hdepth : v.render.toList.length ≤ depth) :
    Reads (valueWithin depth) Closes v.render.toList v := by
  refine ⟨starts_render v, fun {s rest} hs hrest => ?_⟩
  obtain ⟨depth, rfl⟩ := Nat.exists_eq_add_one_of_ne_zero
    (Nat.ne_zero_of_lt ((starts_render v).length_pos.trans_le hdepth))
  cases v with
  | null =>
    obtain ⟨hword, c, r, hc, hstart⟩ := literal?_render .null (.inl rfl) hs hrest.nameEnds
    exact valueWithin_word hc hstart hword
  | boolean b =>
    obtain ⟨hword, c, r, hc, hstart⟩ := literal?_render (.boolean b) (.inr ⟨b, rfl⟩) hs hrest.nameEnds
    exact valueWithin_word hc hstart hword
  | integer i =>
    obtain ⟨c, r, htext, hc⟩ := exists_toList_integer i
    have hskip : skip s = c :: (r ++ rest) := by rw [hs, render, htext, List.cons_append]
    rw [valueWithin_number hskip hc]
    exact number_of_skip hs hrest.ends
  | real x =>
    obtain ⟨c, r, htext, hc⟩ := exists_toList_renderFloat hv
    have hskip : skip s = c :: (r ++ rest) := by rw [hs, render, htext, List.cons_append]
    rw [valueWithin_number hskip hc]
    exact number_of_hasFraction hs hrest.ends hv
  | text t =>
    have hskip : skip s = '\'' :: (t.toList ++ '\'' :: rest) := by
      rw [hs, toList_render_text, List.cons_append, List.append_assoc]
      rfl
    rw [valueWithin, string?_of_skip hskip hv.1 hv.2]
    rfl
  | list items =>
    have hskip : skip s = '[' :: ([',', ' '].intercalate (items.map fun v => v.render.toList) ++
        ']' :: rest) := by
      rw [hs, toList_render_list, List.cons_append, List.append_assoc]
      rfl
    have hlength := length_item_le hdepth
    rw [valueWithin, string?_eq_none hskip (by decide) (by decide)]
    dsimp only
    rw [isAtDigit_of_skip hskip, isAt_of_skip hskip, if_neg (by decide), char?_of_skip hskip]
    have hrun := itemsUntil_bind (List.mem_cons_of_mem _ List.mem_cons_self) id
      (readsAll items hv hlength) (fun r => pure (list r.1, r.2)) rest rfl
    rw [List.map_id'] at hrun
    exact hrun

theorem readsAll (items : List Value) (hitems : AllLegible items) {depth : Nat}
    (hdepth : ∀ v ∈ items, v.render.toList.length ≤ depth) :
    ∀ v ∈ items, Reads (valueWithin depth) Closes v.render.toList v := by
  cases items with
  | nil => exact fun v hv => (List.not_mem_nil hv).elim
  | cons v items =>
    rw [List.forall_mem_cons] at hdepth
    exact List.forall_mem_cons.mpr ⟨reads v hitems.1 hdepth.1, readsAll items hitems.2 hdepth.2⟩

end

theorem reads_value {v : Value} (hv : v.Legible) : Reads Parser.value Closes v.render.toList v := by
  refine ⟨starts_render v, fun {s rest} hs hrest => ?_⟩
  have hlength := length_skip_le s
  rw [hs, List.length_append] at hlength
  exact (reads v hv (by omega : v.render.toList.length ≤ s.length + 1)).run hs hrest

end Value

end GraphPatterns
