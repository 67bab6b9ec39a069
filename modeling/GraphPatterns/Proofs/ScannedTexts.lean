/-
Whole texts at byte positions. Whatever the text, the run ends, stands between two characters all the way,
and gives what the parser gives, at the position of the parser where it fails.
-/
import GraphPatterns.Proofs.ScannedPaths

namespace GraphPatterns

/-- A byte of a text at which it can be cut. -/
def IsPosition (input : String) (p : Nat) : Prop :=
  p ≤ input.utf8ByteSize ∧ String.Pos.Raw.IsValid input ⟨p⟩

/-- The cursor stands where the text can be cut, and did so all the way. No parser that succeeded and no round
of a loop went back. -/
structure TextCursor.IsSafe (c : TextCursor) (input : String) : Prop where
  position : IsPosition input c.position
  stood : ∀ p, .stood p ∈ c.trail → IsPosition input p
  passed : ∀ before after, .passed before after ∈ c.trail → before ≤ after

theorem IsBoundary.isPosition {input : String} {p : Nat} (h : IsBoundary input.toList p) : IsPosition input p := by
  refine ⟨?_, h.isValid⟩
  obtain ⟨before, after, hinput, rfl⟩ := h
  rw [← byteCount_toList, hinput, byteCount_append]
  exact Nat.le_add_right _ _

theorem TextCursor.IsAt.isSafe {c : TextCursor} {input : String} {s : List Char} (h : c.IsAt input.toList s) :
    c.IsSafe input where
  position := h.isBoundary.isPosition
  stood _ hp := IsBoundary.isPosition (h.sound _ hp)
  passed _ _ hpassed := h.sound _ hpassed

theorem TextCursor.IsAt.position_eq {c : TextCursor} {text s : List Char} (h : c.IsAt text s) :
    byteCount text - byteCount s = c.position := by
  obtain ⟨before, rfl, hcount⟩ := h.split
  rw [byteCount_append, hcount, Nat.add_sub_cancel]

/-- A text of any characters is read to its end or to a failure within as many rounds of each loop and
recursion as it has characters. The text is cut between two characters only, and the result is that of the
parser. -/
theorem GraphPattern.scan_safe (input : String) {rounds : Nat} (h : input.toList.length < rounds) :
    ∃ c : TextCursor, c.IsSafe input ∧
      ((∃ g, Scan.text ⟨input.toList, rounds⟩ ⟨0, []⟩ = .done g c ∧ parse input = .ok g) ∨
        ∃ problem, Scan.text ⟨input.toList, rounds⟩ ⟨0, []⟩ = .failed problem c ∧
          parse input = .error (.at problem c.position)) := by
  have hstart : (⟨0, []⟩ : TextCursor).IsAt input.toList input.toList := ⟨⟨[], rfl, rfl⟩, nofun⟩
  have hpatient : Source.IsPatient ⟨input.toList, rounds⟩ := h
  have hends := Scan.ends_text hpatient hstart.isNear
  cases houtcome : Scan.text ⟨input.toList, rounds⟩ ⟨0, []⟩ with
  | done g c =>
    rw [houtcome] at hends
    obtain ⟨-, s, hc, hg⟩ := hends
    exact ⟨c, hc.isSafe, .inl ⟨g, rfl, by rw [parse, hg]⟩⟩
  | failed problem c =>
    rw [houtcome] at hends
    obtain ⟨s, hc, he⟩ := hends
    refine ⟨c, hc.isSafe, .inr ⟨problem, rfl, ?_⟩⟩
    rw [parse, he]
    exact congrArg (fun p => Except.error (ParseError.at problem p)) hc.position_eq
  | crashed c =>
    rw [houtcome] at hends
    exact hends.elim
  | endless c =>
    rw [houtcome] at hends
    exact hends.elim

/-- A comment that is not closed, after letters of two bytes. -/
theorem GraphPattern.scan_safe_unclosed :
    "(é)-[ü /* ß".toList.length < 12 ∧ ∃ c : TextCursor, c.IsSafe "(é)-[ü /* ß" ∧
      ((∃ g, Scan.text ⟨"(é)-[ü /* ß".toList, 12⟩ ⟨0, []⟩ = .done g c ∧ parse "(é)-[ü /* ß" = .ok g) ∨
        ∃ problem, Scan.text ⟨"(é)-[ü /* ß".toList, 12⟩ ⟨0, []⟩ = .failed problem c ∧
          parse "(é)-[ü /* ß" = .error (.at problem c.position)) :=
  ⟨by decide, scan_safe "(é)-[ü /* ß" (by decide)⟩

end GraphPatterns
