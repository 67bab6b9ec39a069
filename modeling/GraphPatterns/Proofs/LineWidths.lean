/-
Lines on a terminal. A ligature and an emoji that is tied to others take back columns that were counted
before, so it is not plain that a line takes no less than none. A character that lets the characters
before it take a column back has paid for it (`Ahead.owed_place`), and so a line without colour sequences
has a width (`hasWidth_of_not_mem`).
-/
import GraphPatterns.Text.Lines
import GraphPatterns.Text.Width
import Mathlib.Data.List.Infix

namespace GraphPatterns.Text

/-! ## What is owed -/

/-- The columns that the letters before a letter may take back. -/
def Letter.owed : Letter → Int
  | .joinerAndConsonant => 1
  | .subscript => 1
  | _ => 0

/-- The columns that the characters before a tied emoji may take back. -/
def Tie.owed : Tie → Int
  | .indicator => 1
  | .indicators odd => if odd then 1 else 0
  | _ => 0

/-- The columns that the characters before a follower may take back. -/
def Follower.owed : Follower → Int
  | .letter l => l.owed
  | .tied t => t.owed
  | _ => 0

theorem Letter.owed_nonneg (l : Letter) : 0 ≤ l.owed := by
  cases l <;> simp [owed]

theorem Tie.owed_nonneg (t : Tie) : 0 ≤ t.owed := by
  fun_cases owed t <;> decide

theorem Follower.owed_nonneg (f : Follower) : 0 ≤ f.owed := by
  cases f with
  | letter l => exact l.owed_nonneg
  | tied t => exact t.owed_nonneg
  | _ => exact Int.le_refl 0

theorem Letter.owed_withJoiner (l : Letter) : l.withJoiner.owed = l.owed := by
  cases l <;> rfl

theorem Letter.owed_ligature? (c : Char) (l : Letter) :
    ∀ r ∈ l.ligature? c, r.2.owed ≤ l.owed + r.1 := by
  fun_cases ligature? c l
  case case4 => simp [Follower.owed, owed_withJoiner]
  all_goals simp [Follower.owed, owed]

theorem Tie.owed_sequence? (c : Char) (t : Tie) : ∀ r ∈ t.sequence? c, r.2.owed ≤ t.owed + r.1 := by
  fun_cases sequence? c t
  case case10 odd _ => cases odd <;> simp [Follower.owed, owed]
  case case11 odd _ _ => cases odd <;> simp [Follower.owed, owed]
  all_goals simp [Follower.owed, owed]

theorem Follower.owed_joined? (c : Char) (f : Follower) :
    ∀ r ∈ f.joined? c, r.2.owed ≤ f.owed + r.1 := by
  fun_cases joined? c f
  case case12 t => exact t.owed_sequence? c
  case case13 l => exact l.owed_ligature? c
  all_goals simp [Follower.owed, Tie.owed]

theorem CharClass.rank_eq (k : CharClass) (code : Nat) :
    k.rank code = k.boundaries.toList.foldl (fun n b => if b ≤ code then n + 1 else n) 0 := by
  rw [rank, Array.foldl_toList]

/-- A class goes on up to its next boundary. -/
theorem CharClass.rank_congr {k : CharClass} {m n : Nat}
    (h : ∀ b ∈ k.boundaries.toList, b ≤ m ↔ b ≤ n) : k.rank m = k.rank n := by
  rw [rank_eq, rank_eq]
  exact List.foldl_ext _ _ 0 fun _ b hb => by simp only [h b hb]

/-- A Khmer letter with a form below the line has a column of its own, so the sign before it may take one
back. -/
theorem one_le_charWidth_of_hasCoengForm {c : Char} (h : hasCoengForm c = true) : 1 ≤ charWidth c := by
  have hrange : 0x1780 ≤ c.toNat ∧ c.toNat < 0x17B0 := by
    simp only [hasCoengForm] at h
    grind
  -- The characters without a column have no boundary among these letters.
  have houtside : ∀ b ∈ zeroWidth.boundaries.toList, b ≤ 0x1780 ∨ 0x17B0 ≤ b := by decide +kernel
  have hrank : zeroWidth.rank c.toNat = zeroWidth.rank 0x1780 :=
    CharClass.rank_congr fun b hb => by
      have := houtside b hb
      omega
  have hwidth : zeroWidth.contains c = false := by
    rw [CharClass.contains, hrank, CharClass.rank_eq]
    decide +kernel
  unfold charWidth
  rw [hwidth]
  grind
theorem Follower.owed_ofChar (c : Char) : (ofChar c).owed ≤ charWidth c := by
  fun_cases ofChar c
  case case4 h => exact Int.ofNat_le.mpr (one_le_charWidth_of_hasCoengForm h)
  all_goals exact Int.natCast_nonneg _

namespace Ahead

theorem owed_select (style : Style) (follower : Follower) :
    (select style follower).follower.owed ≤ follower.owed := by
  have := follower.owed_nonneg
  unfold select
  dsimp only
  split <;> grind [Follower.owed]

/-- **A character pays for what it lets the characters before it take back.** -/
theorem owed_place (c : Char) (a : Ahead) :
    (a.place c).2.follower.owed ≤ a.follower.owed + (a.place c).1 := by
  have hnonneg := a.follower.owed_nonneg
  unfold place
  split
  · -- An emoji in the style of a picture owes nothing.
    refine Int.add_nonneg hnonneg ?_
    split <;> decide
  · generalize hkept : (if a.style == some .picture && !a.follower.isLetter then Follower.other
      else a.follower) = kept
    have hle : kept.owed ≤ a.follower.owed := by
      rw [← hkept]
      split
      · exact hnonneg
      · exact Int.le_refl _
    simp only
    split
    · have hselect := owed_select .picture kept
      simp only
      omega
    split
    · have hselect := owed_select .text kept
      simp only
      omega
    split
    · exact Int.add_nonneg hnonneg (by decide)
    split
    · next columns next h =>
      have hjoined := kept.owed_joined? c _ h
      simp only at hjoined ⊢
      omega
    · have hchar := Follower.owed_ofChar c
      simp only
      omega

end Ahead

/-- **No line takes less than no columns.** -/
theorem columns_nonneg (line : List Char) : 0 ≤ columns line := by
  unfold columns
  generalize hread : line.foldr _ _ = read
  have howed : read.2.follower.owed ≤ read.1 := by
    rw [← hread]
    clear hread
    induction line with
    | nil => exact Int.le_refl 0
    | cons c line ih =>
      rw [List.foldr_cons]
      generalize line.foldr _ _ = after at ih ⊢
      have hplace := after.2.owed_place c
      simp only
      omega
  have hnonneg := read.2.follower.owed_nonneg
  omega

/-! ## Lines without colour sequences -/

theorem hidden_eq_zero {line : List Char} (h : '\x1b' ∉ line) : hidden .outside line = 0 := by
  induction line with
  | nil => rfl
  | cons c line ih =>
    obtain ⟨hc, hline⟩ := List.ne_and_not_mem_of_not_mem_cons h
    rw [hidden, if_neg (Ne.symm hc)]
    exact ih hline

/-- **A line without the escape character has a width.** -/
theorem hasWidth_of_not_mem {line : List Char} (h : '\x1b' ∉ line) : hasWidth line = true := by
  rw [hasWidth, hidden_eq_zero h]
  exact decide_eq_true (columns_nonneg line)

theorem pieces_cons (c : Char) (s : List Char) :
    pieces (c :: s) =
      match pieces s with
      | p :: rest => if c = '\n' then [] :: p :: rest else (c :: p) :: rest
      | [] => [[c]] := rfl

theorem mem_of_mem_pieces {s p : List Char} {c : Char} (hp : p ∈ pieces s) (hc : c ∈ p) : c ∈ s := by
  induction s generalizing p with
  | nil =>
    obtain rfl := List.mem_singleton.mp hp
    exact hc
  | cons a s ih =>
    rw [pieces_cons] at hp
    split at hp
    · next first rest hpieces =>
      have hfirst (hc : c ∈ first) : c ∈ a :: s :=
        List.mem_cons_of_mem a (ih (hpieces ▸ List.mem_cons_self) hc)
      have hrest (hp : p ∈ rest) : c ∈ a :: s :=
        List.mem_cons_of_mem a (ih (hpieces ▸ List.mem_cons_of_mem _ hp) hc)
      split at hp
      · rcases List.mem_cons.mp hp with rfl | hp
        · cases hc
        · rcases List.mem_cons.mp hp with rfl | hp
          · exact hfirst hc
          · exact hrest hp
      · rcases List.mem_cons.mp hp with rfl | hp
        · rcases List.mem_cons.mp hc with rfl | hc
          · exact List.mem_cons_self
          · exact hfirst hc
        · exact hrest hp
    · obtain rfl := List.mem_singleton.mp hp
      rw [List.mem_singleton.mp hc]
      exact List.mem_cons_self

theorem mem_of_mem_lines {s line : List Char} {c : Char} (hline : line ∈ lines s) (hc : c ∈ line) :
    c ∈ s := by
  unfold lines at hline
  rcases List.mem_append.mp hline with hfull | hlast
  · obtain ⟨p, hp, rfl⟩ := List.mem_map.mp hfull
    refine mem_of_mem_pieces (List.mem_of_mem_dropLast hp) ?_
    unfold dropReturn at hc
    split at hc
    · exact List.mem_of_mem_dropLast hc
    · exact hc
  · obtain ⟨hlast, -⟩ := List.mem_filter.mp hlast
    exact mem_of_mem_pieces (List.mem_of_getLast? (Option.mem_toList.mp hlast)) hc

end GraphPatterns.Text
