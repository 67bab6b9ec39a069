/-
Cursors between two characters of a text. A step that is taken from such a position by the width of what
comes next ends at such a position, so no cut of the text crashes; and a loop that passes something in each
round ends within as many rounds as the text has characters (`Scan.ends_loop`).
-/
import GraphPatterns.Pattern.Scan.Path
import GraphPatterns.Proofs.Slices

namespace GraphPatterns

open GraphPatterns.Parser (Failure)

/-- The cursor stood between two characters, or went on and not back. -/
def Event.IsSound (text : List Char) : Event → Prop
  | .stood position => IsBoundary text position
  | .passed before after => before ≤ after

/-- The cursor stands where the text goes on as given, and its trail is sound. -/
structure TextCursor.IsAt (c : TextCursor) (text s : List Char) : Prop where
  split : ∃ before, text = before ++ s ∧ byteCount before = c.position
  sound : ∀ e ∈ c.trail, e.IsSound text

/-- Every loop and every recursion may go on for more rounds than the text has characters. -/
def Source.IsPatient (source : Source) : Prop := source.text.length < source.rounds

/-- The run ends between two characters: with an answer and not before a position, or with a failure.
What is asked of an answer and of a failure may depend on how the text goes on there. -/
def ScanOutcome.Ends {α : Type} (o : ScanOutcome α) (text : List Char) (start : Nat)
    (Post : α → List Char → Prop)
    (Error : Failure → Prop) : Prop :=
  match o with
  | .done a c => start ≤ c.position ∧ ∃ s, c.IsAt text s ∧ Post a s
  | .failed problem c => ∃ s, c.IsAt text s ∧ Error ⟨problem, s⟩
  | .crashed _ => False
  | .endless _ => False

/-- The run ends with an answer, where the text goes on as given. -/
def ScanOutcome.Reaches {α : Type} (o : ScanOutcome α) (text : List Char) (start : Nat) (a : α)
    (s : List Char) : Prop :=
  o.Ends text start (fun b t => b = a ∧ t = s) fun _ => False

theorem TextCursor.IsAt.isBoundary {c : TextCursor} {text s : List Char} (h : c.IsAt text s) :
    IsBoundary text c.position := by
  obtain ⟨before, htext, hcount⟩ := h.split
  exact ⟨before, s, htext, hcount⟩

theorem TextCursor.IsAt.length_le {c : TextCursor} {text s : List Char} (h : c.IsAt text s) :
    s.length ≤ text.length := by
  obtain ⟨before, rfl, -⟩ := h.split
  rw [List.length_append]
  exact Nat.le_add_left _ _

/-- Nothing stands between two cursors that stand at one position. -/
theorem TextCursor.IsAt.position_eq_iff {c c' : TextCursor} {text t s : List Char} (h : c.IsAt text (t ++ s))
    (h' : c'.IsAt text s) : c'.position = c.position ↔ t = [] := by
  obtain ⟨before, htext, hcount⟩ := h.split
  obtain ⟨before', htext', hcount'⟩ := h'.split
  rw [htext, ← List.append_assoc] at htext'
  rw [← hcount, ← hcount', ← List.append_cancel_right htext', byteCount_append]
  cases t with
  | nil => simp
  | cons d t =>
    have hpos := d.utf8Size_pos
    rw [byteCount_cons, eq_false (List.cons_ne_nil d t), iff_false]
    omega

theorem ScanOutcome.Ends.mono {α : Type} {o : ScanOutcome α} {text : List Char} {start start' : Nat}
    {Post Post' : α → List Char → Prop} {Error Error' : Failure → Prop} (h : o.Ends text start Post Error)
    (hstart : start' ≤ start) (hpost : ∀ a s, Post a s → Post' a s) (herror : ∀ e, Error e → Error' e) :
    o.Ends text start' Post' Error' := by
  cases o with
  | done a c =>
    obtain ⟨hle, s, hc, hs⟩ := h
    exact ⟨Nat.le_trans hstart hle, s, hc, hpost a s hs⟩
  | failed problem c =>
    obtain ⟨s, hc, hs⟩ := h
    exact ⟨s, hc, herror _ hs⟩
  | crashed c => exact h
  | endless c => exact h

namespace Scan

variable {α β : Type} {source : Source} {c : TextCursor} {s t : List Char} {a : α} {start : Nat}
  {Post : α → List Char → Prop} {Post' : β → List Char → Prop} {Error Error' : Failure → Prop}

/-! ## Single steps -/

theorem ends_pure (h : c.IsAt source.text s) (hpost : Post a s) :
    ((pure a : Scan α) source c).Ends source.text c.position Post Error := ⟨Nat.le_refl _, s, h, hpost⟩

theorem ends_fail {problem : Parser.Problem} (h : c.IsAt source.text s) (herror : Error ⟨problem, s⟩) :
    ((fail problem : Scan α) source c).Ends source.text start Post Error := ⟨s, h, herror⟩

/-- One run after another. The second one may go back to a position before the first one. -/
theorem ends_bind_back {p : Scan α} {next : α → Scan β} {start' : Nat}
    (h : (p source c).Ends source.text start Post Error)
    (hnext : ∀ a s c', Post a s → c'.IsAt source.text s → start ≤ c'.position →
      (next a source c').Ends source.text start' Post' Error')
    (herror : ∀ e, Error e → Error' e) :
    ((p >>= next) source c).Ends source.text start' Post' Error' := by
  change (andThen p next source c).Ends _ _ _ _
  rw [andThen]
  cases hp : p source c with
  | done a c' =>
    rw [hp] at h
    obtain ⟨hle, s, hc', hs⟩ := h
    exact hnext a s c' hs hc' hle
  | failed problem c' =>
    rw [hp] at h
    obtain ⟨s, hc', hs⟩ := h
    exact ⟨s, hc', herror _ hs⟩
  | crashed c' =>
    rw [hp] at h
    exact h
  | endless c' =>
    rw [hp] at h
    exact h

theorem ends_bind {p : Scan α} {next : α → Scan β} (h : (p source c).Ends source.text c.position Post Error)
    (hnext : ∀ a s c', Post a s → c'.IsAt source.text s →
      (next a source c').Ends source.text c'.position Post' Error')
    (herror : ∀ e, Error e → Error' e) :
    ((p >>= next) source c).Ends source.text c.position Post' Error' :=
  ends_bind_back h (fun a s c' hs hc' hle => (hnext a s c' hs hc').mono hle (fun _ _ h => h) fun _ h => h) herror

theorem reaches_bind {p : Scan α} {next : α → Scan β} (h : (p source c).Reaches source.text c.position a s)
    (hnext : ∀ c', c'.IsAt source.text s → (next a source c').Ends source.text c'.position Post' Error') :
    ((p >>= next) source c).Ends source.text c.position Post' Error' := by
  refine ends_bind h ?_ fun _ h => h.elim
  rintro _ _ c' ⟨rfl, rfl⟩ hc'
  exact hnext c' hc'

theorem reaches_pure (h : c.IsAt source.text s) (a : α) :
    ((pure a : Scan α) source c).Reaches source.text c.position a s := ends_pure h ⟨rfl, rfl⟩

theorem reaches_source (h : c.IsAt source.text s) :
    (Scan.source source c).Reaches source.text c.position source s := reaches_pure h source

theorem reaches_position (h : c.IsAt source.text s) :
    (position source c).Reaches source.text c.position c.position s := reaches_pure h c.position

theorem reaches_rest (h : c.IsAt source.text s) : (rest source c).Reaches source.text c.position s s := by
  obtain ⟨before, htext, hcount⟩ := h.split
  have hrest : rest source c = .done s c := by
    change cut (sliceFrom? source.text c.position) source c = _
    rw [htext, ← hcount, sliceFrom?_append]
    rfl
  rw [hrest]
  exact reaches_pure h s

theorem reaches_since (h : c.IsAt source.text (t ++ s)) {c' : TextCursor} (h' : c'.IsAt source.text s) :
    (since c.position source c').Reaches source.text c'.position t s := by
  obtain ⟨before, htext, hcount⟩ := h.split
  obtain ⟨before', htext', hcount'⟩ := h'.split
  have hbefore : before' = before ++ t := by
    rw [htext, ← List.append_assoc] at htext'
    exact (List.append_cancel_right htext').symm
  have hsince : since c.position source c' = .done t c' := by
    change cut (slice? source.text c.position c'.position) source c' = _
    rw [← hcount', hbefore, byteCount_append, ← hcount, htext, slice?_append]
    rfl
  rw [hsince]
  exact reaches_pure h' t

/-- The cursor may be moved to where another one stands, also back. -/
theorem ends_moveTo {next : Unit → Scan β} (h : c.IsAt source.text s) {c' : TextCursor}
    (h' : c'.IsAt source.text t)
    (hnext : ∀ c'', c''.IsAt source.text s → c''.position = c.position →
      (next () source c'').Ends source.text c''.position Post' Error') :
    ((moveTo c.position >>= next) source c').Ends source.text c.position Post' Error' :=
  hnext ⟨c.position, .stood c.position :: c'.trail⟩
    ⟨h.split, List.forall_mem_cons.mpr ⟨h.isBoundary, h'.sound⟩⟩ rfl

theorem reaches_moveTo (h : c.IsAt source.text s) {c' : TextCursor} (h' : c'.IsAt source.text t)
    (hle : c.position ≤ c'.position) :
    (moveTo c'.position source c).Reaches source.text c.position () t :=
  ⟨hle, t, ⟨h'.split, List.forall_mem_cons.mpr ⟨h'.isBoundary, h.sound⟩⟩, rfl, rfl⟩

/-- A step by the bytes of what comes next. -/
theorem reaches_advance (h : c.IsAt source.text (t ++ s)) {n : Nat} (hn : byteCount t = n) :
    (advance n source c).Reaches source.text c.position () s := by
  obtain ⟨before, htext, hcount⟩ := h.split
  have hat : (⟨c.position + n, c.trail⟩ : TextCursor).IsAt source.text s := by
    refine ⟨⟨before ++ t, by rw [htext, List.append_assoc], ?_⟩, h.sound⟩
    rw [byteCount_append, hcount, hn]
  exact reaches_moveTo h hat (Nat.le_add_right _ _)

theorem reaches_toEnd (h : c.IsAt source.text s) :
    (moveTo (byteCount source.text) source c).Reaches source.text c.position () [] := by
  obtain ⟨before, htext, hcount⟩ := h.split
  have hat : (⟨byteCount source.text, c.trail⟩ : TextCursor).IsAt source.text [] :=
    ⟨⟨source.text, (List.append_nil _).symm, rfl⟩, h.sound⟩
  refine reaches_moveTo h hat ?_
  rw [← hcount, htext, byteCount_append]
  exact Nat.le_add_right _ _

theorem ends_passing {p : Scan α} (h : (p source c).Ends source.text c.position Post Error) :
    (passing p source c).Ends source.text c.position Post Error := by
  change (andThen p (fun a => note c.position >>= fun _ => pure a) source c).Ends _ _ _ _
  rw [andThen]
  cases hp : p source c with
  | done a c' =>
    rw [hp] at h
    obtain ⟨hle, s, hc', hs⟩ := h
    exact ⟨hle, s, ⟨hc'.split, List.forall_mem_cons.mpr ⟨hle, hc'.sound⟩⟩, hs⟩
  | _ =>
    rw [hp] at h
    exact h

/-! ## Loops -/

/-- A loop whose rounds keep an invariant and make the rest of the text smaller until one ends it. -/
theorem ends_loop {round : β → Scan (β ⊕ α)} {b : β} (size : List Char → Nat) (Inv : β → List Char → Prop)
    (hpatient : source.IsPatient) (hsize : ∀ s, size s ≤ s.length)
    (hround : ∀ b s c, Inv b s → c.IsAt source.text s → (round b source c).Ends source.text c.position
      (fun | .inl b', t => size t < size s ∧ Inv b' t | .inr a, t => Post a t) Error)
    (h : c.IsAt source.text s) (hinv : Inv b s) :
    (loop round b source c).Ends source.text c.position Post Error := by
  suffices key : ∀ rounds b s c, size s < rounds → Inv b s → c.IsAt source.text s →
      (loopWithin round rounds b source c).Ends source.text c.position Post Error from
    key source.rounds b s c (Nat.lt_of_le_of_lt (Nat.le_trans (hsize s) h.length_le) hpatient) hinv h
  intro rounds
  induction rounds with
  | zero => exact fun _ _ _ hlt => absurd hlt (Nat.not_lt_zero _)
  | succ rounds ih =>
    intro b s c hlt hinv h
    rw [loopWithin]
    refine ends_bind (ends_passing (hround b s c hinv h)) ?_ fun _ h => h
    rintro (b' | a) t c' hpost hc'
    · exact ih b' t c' (Nat.lt_of_lt_of_le hpost.1 (Nat.le_of_lt_succ hlt)) hpost.2 hc'
    · exact ends_pure hc' hpost

/-! ## Looking ahead -/

theorem reaches_peekChar (h : c.IsAt source.text s) :
    (peekChar source c).Reaches source.text c.position s.head? s :=
  reaches_bind (reaches_rest h) fun _ hc' => reaches_pure hc' _

theorem reaches_isTextNext (h : c.IsAt source.text s) (t : String) :
    (isTextNext t source c).Reaches source.text c.position (t.toList.isPrefixOf s) s :=
  reaches_bind (reaches_rest h) fun _ hc' => reaches_pure hc' _

theorem reaches_isNext (h : c.IsAt source.text s) (d : Char) :
    (isNext d source c).Reaches source.text c.position (s.head? == some d) s :=
  reaches_bind (reaches_peekChar h) fun _ hc' => reaches_pure hc' _

theorem reaches_isNameNext (h : c.IsAt source.text s) :
    (isNameNext source c).Reaches source.text c.position (s.head?.any Parser.isNameStart) s :=
  reaches_bind (reaches_peekChar h) fun _ hc' => reaches_pure hc' _

theorem reaches_isDigitNext (h : c.IsAt source.text s) :
    (isDigitNext source c).Reaches source.text c.position (s.head?.any Char.isDigit) s :=
  reaches_bind (reaches_peekChar h) fun _ hc' => reaches_pure hc' _

/-- The word that comes next is cut off before the first character that cannot be part of it. -/
theorem reaches_isKeywordNext (h : c.IsAt source.text s) (k : String) :
    (isKeywordNext k source c).Reaches source.text c.position
      (Parser.sameLetters (s.takeWhile Parser.isNamePart) k.toList) s := by
  refine reaches_bind (reaches_rest h) fun c' hc' => ?_
  have hword : sliceTo? s ((findChar? (fun c => !Parser.isNamePart c) s).getD (byteCount s)) =
      some (s.takeWhile Parser.isNamePart) := by
    rw [findChar?_getD]
    simp only [Bool.not_not]
    have hsplit := sliceTo?_append (s.takeWhile Parser.isNamePart) (s.dropWhile Parser.isNamePart)
    rwa [List.takeWhile_append_dropWhile] at hsplit
  rw [hword]
  exact reaches_pure hc' _

end Scan

end GraphPatterns
