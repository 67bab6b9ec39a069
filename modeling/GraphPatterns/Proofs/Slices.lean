/-
Cuts of a text between two characters. Such a position is the byte count of what stands before it, and it
is a valid position of the text as a string (`IsBoundary.isValid`). A cut there finds what follows, and the
offset of a search is the byte count of what is passed over.
-/
import GraphPatterns.Pattern.Scan.Basic
import Mathlib.Data.List.TakeDrop
import Mathlib.Data.List.TakeWhile

namespace GraphPatterns

/-! ## Counting bytes -/

@[simp] theorem byteCount_nil : byteCount [] = 0 := rfl

theorem byteCount_append (s t : List Char) : byteCount (s ++ t) = byteCount s + byteCount t := by
  have hfold : ∀ n, t.foldl (fun n c => n + c.utf8Size) n = n + byteCount t := by
    induction t with
    | nil => exact fun n => rfl
    | cons c t ih => exact fun n => by rw [byteCount, List.foldl_cons, List.foldl_cons, ih, ih]; omega
  rw [byteCount, List.foldl_append]
  exact hfold _

@[simp] theorem byteCount_cons (c : Char) (s : List Char) : byteCount (c :: s) = c.utf8Size + byteCount s := by
  rw [← List.singleton_append, byteCount_append]
  exact congrArg (· + byteCount s) (Nat.zero_add _)

theorem byteCount_toList (s : String) : byteCount s.toList = s.utf8ByteSize := by
  have key (t : List Char) : byteCount t = (String.ofList t).utf8ByteSize := by
    induction t with
    | nil => rfl
    | cons c t ih => rw [byteCount_cons, ih, String.ofList_cons, String.utf8ByteSize_append,
        String.utf8ByteSize_singleton]
  rw [key, String.ofList_toList]

/-! ## Cutting -/

theorem sliceFrom?_append (t s : List Char) : sliceFrom? (t ++ s) (byteCount t) = some s := by
  induction t with
  | nil => cases s <;> rfl
  | cons c t ih =>
    obtain ⟨n, hn⟩ := Nat.exists_eq_add_one_of_ne_zero (Nat.ne_of_gt c.utf8Size_pos)
    rw [byteCount_cons, List.cons_append, hn, Nat.add_right_comm, sliceFrom?, if_pos (by omega)]
    have hrest : n + byteCount t + 1 - c.utf8Size = byteCount t := by omega
    rw [hrest, ih]

theorem sliceTo?_append (t s : List Char) : sliceTo? (t ++ s) (byteCount t) = some t := by
  induction t with
  | nil => cases s <;> rfl
  | cons c t ih =>
    obtain ⟨n, hn⟩ := Nat.exists_eq_add_one_of_ne_zero (Nat.ne_of_gt c.utf8Size_pos)
    rw [byteCount_cons, List.cons_append, hn, Nat.add_right_comm, sliceTo?, if_pos (by omega)]
    have hrest : n + byteCount t + 1 - c.utf8Size = byteCount t := by omega
    rw [hrest, ih]
    rfl

theorem slice?_append (s t r : List Char) :
    slice? (s ++ (t ++ r)) (byteCount s) (byteCount s + byteCount t) = some t := by
  rw [slice?, if_pos (Nat.le_add_right _ _), sliceFrom?_append, Nat.add_sub_cancel_left]
  exact sliceTo?_append t r

/-! ## Searching -/

theorem findChar?_getD (p : Char → Bool) (s : List Char) :
    (findChar? p s).getD (byteCount s) = byteCount (s.takeWhile fun c => !p c) := by
  induction s with
  | nil => rfl
  | cons c s ih =>
    rw [findChar?]
    cases hp : p c with
    | true => simp [hp]
    | false =>
      rw [if_neg Bool.false_ne_true, List.takeWhile_cons_of_pos (by simp [hp]), byteCount_cons,
        byteCount_cons, ← ih]
      cases findChar? p s with
      | none => rfl
      | some n => exact Nat.add_comm ..

theorem exists_of_findChar? {p : Char → Bool} {s : List Char} {n : Nat} (h : findChar? p s = some n) :
    ∃ t c r, s = t ++ c :: r ∧ byteCount t = n ∧ (∀ d ∈ t, p d = false) ∧ p c = true := by
  induction s generalizing n with
  | nil => cases h
  | cons d s ih =>
    rw [findChar?] at h
    cases hp : p d with
    | true =>
      rw [hp, if_pos rfl, Option.some.injEq] at h
      exact ⟨[], d, s, rfl, h, nofun, hp⟩
    | false =>
      rw [hp, if_neg Bool.false_ne_true] at h
      obtain ⟨m, hm, rfl⟩ := Option.map_eq_some_iff.mp h
      obtain ⟨t, c, r, rfl, rfl, ht, hc⟩ := ih hm
      exact ⟨d :: t, c, r, rfl, (byteCount_cons d t).trans (Nat.add_comm ..),
        List.forall_mem_cons.mpr ⟨hp, ht⟩, hc⟩

theorem of_findChar?_eq_none {p : Char → Bool} {s : List Char} (h : findChar? p s = none) :
    ∀ d ∈ s, p d = false := by
  induction s with
  | nil => exact nofun
  | cons d s ih =>
    rw [findChar?] at h
    cases hp : p d with
    | true => simp [hp] at h
    | false =>
      rw [hp, if_neg Bool.false_ne_true, Option.map_eq_none_iff] at h
      exact List.forall_mem_cons.mpr ⟨hp, ih h⟩

/-! ## Positions -/

/-- A position between two characters of a text, or at one of its ends. -/
def IsBoundary (text : List Char) (position : Nat) : Prop :=
  ∃ before after, text = before ++ after ∧ byteCount before = position

/-- Such a position is a valid one of the text as a string. -/
theorem IsBoundary.isValid {s : String} {position : Nat} (h : IsBoundary s.toList position) :
    String.Pos.Raw.IsValid s ⟨position⟩ := by
  obtain ⟨before, after, hs, rfl⟩ := h
  refine String.Pos.Raw.isValid_iff_exists_append.mpr ⟨String.ofList before, String.ofList after, ?_, ?_⟩
  · rw [← String.ofList_append, ← hs, String.ofList_toList]
  · have hbytes := byteCount_toList (String.ofList before)
    rw [String.toList_ofList] at hbytes
    rw [hbytes]
    rfl

end GraphPatterns
