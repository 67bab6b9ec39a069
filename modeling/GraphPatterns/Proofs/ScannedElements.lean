/-
Label expressions, fillers, nodes, edges and quantifiers at byte positions. An edge is read where one of the
four characters or pairs of characters comes next that start an arrow.
-/
import GraphPatterns.Proofs.ScannedExprs

namespace GraphPatterns.Scan

open GraphPatterns.Parser (skip)

variable {α : Type} {source : Source} {bound : Nat} {c : TextCursor} {s : List Char} {inner : Scan LabelExpr}
  {parse : Parser.Parse LabelExpr}

/-! ## Labels -/

theorem follows_labelFactor (hpatient : source.IsPatient) (h : Follows source bound inner parse) :
    Follows source (bound + 1) (labelFactor inner) fun s => Parser.labelFactor parse (s.length + 1) s := by
  have hwithin : ∀ n m c s, c.IsNear source.text s → (skip s).length < bound + 1 → (skip s).length < n →
      (skip s).length < m → (labelFactorWithin inner n source c).Follows source.text c.position s
        (Parser.labelFactor parse m s) := by
    intro n
    induction n with
    | zero => exact fun _ _ _ _ _ hn => absurd hn (Nat.not_lt_zero _)
    | succ n ih =>
      intro m c s hc hs hn hm
      obtain ⟨m, rfl⟩ : ∃ k, m = k + 1 := Nat.exists_eq_add_one.mpr (Nat.zero_lt_of_lt hm)
      rw [Parser.labelFactor]
      refine follows_passing ((finds_tryChar hpatient '!').follows hc (fun r c hr hc hlt => ?_) fun c hr hc => ?_)
      · rw [hr]
        exact follows_bind (ih m c r hc.isNear (by omega) (by omega) (by omega)) fun e u c hc _ => follows_pure hc
      rw [hr]
      refine (finds_tryChar hpatient '(').follows hc.isNear_skip (fun r c hr hc hlt => ?_) fun c hr hc => ?_
      · rw [hr]
        refine follows_bind (h c r hc.isNear (by omega)) fun e u c hc _ => ?_
        exact follows_expect (ends_expectChar hpatient hc ')') fun v c hc _ => follows_pure hc
      rw [hr]
      refine (finds_tryChar hpatient '%').follows hc.isNear_skip (fun r c hr hc hlt => ?_) fun c hr hc => ?_
      · rw [hr]
        exact follows_pure hc.isNear
      · rw [hr]
        exact follows_map (follows_identifier hpatient hc.isNear_skip) fun name u c hc _ => follows_pure hc
  intro c s hc hs
  exact follows_source (hwithin _ _ c s hc hs (lt_rounds hpatient hc)
    (Nat.lt_succ_of_le (Parser.length_skip_le s)))

theorem follows_labelConjunction (hpatient : source.IsPatient) (h : Follows source bound inner parse) :
    Follows source (bound + 1) (labelConjunction inner) (Parser.labelConjunction parse) := fun c s hc hs =>
  follows_map (follows_separated hpatient (finds_tryChar hpatient '&') (follows_labelFactor hpatient h) c s hc hs)
    fun _ _ _ hc _ => follows_pure hc

theorem follows_labelDisjunction (hpatient : source.IsPatient) (h : Follows source bound inner parse) :
    Follows source (bound + 1) (labelDisjunction inner) (Parser.labelDisjunction parse) := fun c s hc hs =>
  follows_map (follows_separated hpatient (finds_tryChar hpatient '|') (follows_labelConjunction hpatient h) c s
    hc hs) fun _ _ _ hc _ => follows_pure hc

theorem follows_labelsWithin (hpatient : source.IsPatient) {n m : Nat} (hn : bound ≤ n) (hm : bound ≤ m) :
    Follows source bound (labelsWithin n) (Parser.labelsWithin m) := by
  induction bound generalizing n m with
  | zero => exact fun _ _ _ hs => absurd hs (Nat.not_lt_zero _)
  | succ bound ih =>
    obtain ⟨n, rfl⟩ : ∃ k, n = k + 1 := Nat.exists_eq_add_one.mpr (Nat.zero_lt_of_lt hn)
    obtain ⟨m, rfl⟩ : ∃ k, m = k + 1 := Nat.exists_eq_add_one.mpr (Nat.zero_lt_of_lt hm)
    exact follows_labelDisjunction hpatient (ih (Nat.le_of_succ_le_succ hn) (Nat.le_of_succ_le_succ hm))

theorem follows_labels (hpatient : source.IsPatient) (hc : c.IsNear source.text s) :
    (labels source c).Follows source.text c.position s (Parser.labels s) := by
  rw [Parser.labels]
  refine follows_passing ((finds_tryEither (finds_tryChar hpatient ':')
    (finds_tryKeyword hpatient (by decide))).follows hc (fun r c hr hc hlt => ?_) fun c hr hc => ?_)
  · simp only [hr]
    refine follows_source (follows_map (follows_labelsWithin hpatient (lt_rounds hpatient hc.isNear)
      (Nat.succ_le_succ (Parser.length_skip_le r)) c r hc.isNear (Nat.lt_add_one _)) fun e u c hc _ => ?_)
    exact follows_pure hc
  · simp only [hr]
    exact follows_pure hc.isNear_skip

/-! ## Fillers -/

theorem follows_property (hpatient : source.IsPatient) : Follows source bound property Parser.property := by
  intro c s hc _
  refine follows_bind (follows_identifier hpatient hc) fun key r c hc _ => ?_
  refine follows_expect (ends_expectChar hpatient hc ':') fun u c hc _ => ?_
  exact follows_bind (follows_value hpatient c u hc (Nat.lt_add_one _)) fun v w c hc _ => follows_pure hc

theorem follows_properties (hpatient : source.IsPatient) (hc : c.IsNear source.text s) :
    (properties source c).Follows source.text c.position s (Parser.properties s) := by
  rw [Parser.properties]
  refine (finds_tryChar hpatient '\x7b').follows hc (fun r c hr hc hlt => ?_) fun c hr hc => ?_
  · rw [hr]
    refine follows_bind (follows_itemsUntil hpatient (follows_property hpatient) hc.isNear (Nat.lt_add_one _)
      (Nat.lt_succ_of_le (Parser.length_skip_le r))) fun items u c hc _ => ?_
    exact follows_expect (ends_expectChar hpatient hc '\x7d') fun v c hc _ => follows_pure hc
  · rw [hr]
    exact follows_pure hc.isNear_skip

theorem follows_elementName (hpatient : source.IsPatient) (hc : c.IsNear source.text s) :
    (elementName source c).Follows source.text c.position s (Parser.elementName s) := by
  have hword (k : String) : (Parser.keyword? k s).isNone =
      !Parser.sameLetters ((skip s).takeWhile Parser.isNamePart) k.toList := by
    rw [Parser.keyword?_eq]
    split <;> simp [*]
  refine follows_passing (follows_skipBlanks hpatient hc fun c hc => ?_)
  refine follows_after (reaches_isNameNext hc) fun c hc => ?_
  refine follows_after (reaches_isKeywordNext hc "WHERE") fun c hc => ?_
  refine follows_after (reaches_isKeywordNext hc "IS") fun c hc => ?_
  rw [Parser.elementName, Parser.isAtName, hword, hword]
  split
  · exact follows_map (follows_identifier hpatient hc.isNear_skip) fun name r c hc _ => follows_pure hc
  · exact follows_pure hc.isNear_skip

theorem follows_filler (hpatient : source.IsPatient) (hc : c.IsNear source.text s) :
    (filler source c).Follows source.text c.position s (Parser.filler s) := by
  refine follows_bind (follows_elementName hpatient hc) fun name r c hc _ => ?_
  refine follows_bind (follows_labels hpatient hc) fun label r c hc _ => ?_
  refine follows_bind (follows_properties hpatient hc) fun properties r c hc _ => ?_
  exact follows_bind (follows_condition hpatient hc) fun condition r c hc _ => follows_pure hc

theorem advances_node (hpatient : source.IsPatient) (hc : c.IsNear source.text s) :
    (node source c).Advances source.text c.position s (Parser.node s) := by
  refine ends_passing (advances_expect (ends_expectChar hpatient hc '(') fun r c hc _ => ?_)
  refine follows_bind (follows_filler hpatient hc) fun f r c hc _ => ?_
  exact follows_expect (ends_expectChar hpatient hc ')') fun r c hc _ => follows_pure hc

/-! ## Edges -/

theorem findsOne_choice (hpatient : source.IsPatient) {texts : List (String × α)} (hne : texts ≠ [])
    (htexts : ∀ t ∈ texts, t.1.toList ≠ []) : FindsOne source (choice texts) (Parser.choice? texts) := by
  induction texts with
  | nil => exact absurd rfl hne
  | cons t texts ih =>
    rw [List.forall_mem_cons] at htexts
    have hfirst := finds_tryText hpatient htexts.1
    cases texts with
    | nil =>
      refine (findsOne_single hfirst).congr fun s => ?_
      rw [Parser.choice?]
      cases Parser.text? t.1 s <;> rfl
    | cons u texts =>
      refine (findsOne_cons hfirst (ih (List.cons_ne_nil _ _) htexts.2)).congr fun s => ?_
      rw [Parser.choice?]
      cases Parser.text? t.1 s <;> rfl

theorem isSome_choice? (texts : List (String × α)) (s : List Char) :
    (Parser.choice? texts s).isSome = texts.any fun t => t.1.toList.isPrefixOf (skip s) := by
  induction texts with
  | nil => rfl
  | cons t texts ih =>
    rw [Parser.choice?, List.any_cons, ← ih, ← Parser.isSome_text?]
    cases Parser.text? t.1 s <;> rfl

theorem reaches_try {isToken : Scan Bool} {token : List Char → Option (List Char)} {a b : α} {r : List Char}
    {more : Scan α} {choice : Option (α × List Char)} (h : Finds source isToken token)
    (hc : c.IsNear source.text s)
    (hchoice : (match token s with | some r => some (b, r) | none => choice) = some (a, r))
    (hmore : ∀ c', c'.IsAt source.text (skip s) → choice = some (a, r) →
      (more source c').Reaches source.text c'.position a r) :
    ((isToken >>= fun found => if found = true then pure b else more) source c).Reaches source.text c.position
      a r := by
  refine h.ite hc (fun u c hu hc _ => ?_) fun c hu hc => ?_
  · rw [hu] at hchoice
    obtain ⟨rfl, rfl⟩ := Prod.mk.inj (Option.some.inj hchoice)
    exact reaches_pure hc b
  · rw [hu] at hchoice
    exact hmore c hc hchoice

theorem reaches_opening (hpatient : source.IsPatient) (hc : c.IsNear source.text s) {arrow : String}
    {r : List Char} (h : Parser.choice? Parser.openings s = some (arrow, r)) :
    (opening source c).Reaches source.text c.position arrow r := by
  have htext {t : String} (ht : t.toList ≠ []) := finds_tryText hpatient ht
  refine reaches_try (htext (by decide)) hc h fun c hc h => ?_
  refine reaches_try (htext (by decide)) hc.isNear_skip h fun c hc h => ?_
  refine reaches_try (htext (by decide)) hc.isNear_skip h fun c hc h => ?_
  rw [Parser.choice?] at h
  cases hlast : Parser.text? "-[" s with
  | some u =>
    simp only [hlast, Option.some.injEq, Prod.mk.injEq] at h
    obtain ⟨rfl, rfl⟩ := h
    have hfound := ((htext (by decide)).found hc.isNear_skip hlast).1
    have hexpect : (expectText "-[" source c).Reaches source.text c.position () u :=
      ends_passing (reaches_bind hfound fun c hc => reaches_pure hc ())
    exact reaches_bind hexpect fun c hc => reaches_pure hc _
  | none => simp [hlast, Parser.choice?] at h

/-- The openings are those of the arrows that can be closed. -/
theorem exists_closings {arrow : String} {r : List Char}
    (h : Parser.choice? Parser.openings s = some (arrow, r)) :
    Parser.closings arrow ≠ [] ∧ ∀ t ∈ Parser.closings arrow, t.1.toList ≠ [] := by
  have harrow : ∀ {texts : List (String × String)}, Parser.choice? texts s = some (arrow, r) →
      arrow ∈ texts.map Prod.snd := by
    intro texts h
    induction texts with
    | nil => cases h
    | cons t texts ih =>
      rw [Parser.choice?] at h
      split at h
      · obtain ⟨rfl, -⟩ := Prod.mk.inj (Option.some.inj h)
        exact List.mem_cons_self
      · exact List.mem_cons_of_mem _ (ih h)
  have hall : ∀ arrow ∈ Parser.openings.map Prod.snd,
      Parser.closings arrow ≠ [] ∧ ∀ t ∈ Parser.closings arrow, t.1.toList ≠ [] := by decide
  exact hall arrow (harrow h)

theorem follows_fullEdge (hpatient : source.IsPatient) (hc : c.IsNear source.text s) {arrow : String}
    {r : List Char} (h : Parser.choice? Parser.openings s = some (arrow, r)) :
    (fullEdge source c).Follows source.text c.position r (do
      let (f, u) ← Parser.filler r
      let u ← Parser.expectChar ']' u
      match Parser.choice? (Parser.closings arrow) u with
      | some (direction, u) => return (⟨f, direction, false⟩, u)
      | none => Parser.fail (.unmatchedEdge arrow) (skip u)) := by
  obtain ⟨hclosings, htexts⟩ := exists_closings h
  refine follows_passing (follows_after (reaches_opening hpatient hc h) fun c hc => ?_)
  refine follows_bind (follows_filler hpatient hc.isNear) fun f u c hc _ => ?_
  refine follows_expect (ends_expectChar hpatient hc ']') fun v c hc _ => ?_
  refine (findsOne_choice hpatient hclosings htexts).follows hc (fun d w c hw hc _ => ?_) fun c hw hc => ?_
  · simp only [hw]
    exact follows_pure hc.isNear
  · simp only [hw]
    exact follows_fail hc

/-- The texts at which an edge is looked for are the beginnings of all arrows. -/
theorem isSome_edge? (s : List Char) :
    (Parser.edge? s).isSome = ("-".toList.isPrefixOf (skip s) || "~".toList.isPrefixOf (skip s) ||
      "<-".toList.isPrefixOf (skip s) || "<~".toList.isPrefixOf (skip s)) := by
  have hedge : (Parser.edge? s).isSome =
      ((Parser.choice? Parser.openings s).isSome || (Parser.choice? Parser.arrows s).isSome) := by
    rw [Parser.edge?]
    cases Parser.choice? Parser.openings s with
    | some one => rfl
    | none => exact Option.isSome_map
  have hlonger {t u : String} (h : t.toList <+: u.toList) (hu : u.toList.isPrefixOf (skip s) = true) :
      t.toList.isPrefixOf (skip s) = true :=
    List.isPrefixOf_iff_prefix.mpr (h.trans (List.isPrefixOf_iff_prefix.mp hu))
  rw [hedge, isSome_choice?, isSome_choice?]
  rw [Bool.eq_iff_iff]
  simp only [Parser.openings, Parser.arrows, List.any_cons, List.any_nil, Bool.or_false, Bool.or_eq_true]
  constructor
  · rintro ((h | h | h | h) | (h | h | h | h | h | h | h))
    · exact .inl (.inr (hlonger (by decide) h))
    · exact .inr (hlonger (by decide) h)
    · exact .inl (.inl (.inr (hlonger (by decide) h)))
    · exact .inl (.inl (.inl (hlonger (by decide) h)))
    · exact .inl (.inr (hlonger (by decide) h))
    · exact .inl (.inr h)
    · exact .inr h
    · exact .inl (.inl (.inl (hlonger (by decide) h)))
    · exact .inl (.inl (.inr (hlonger (by decide) h)))
    · exact .inl (.inl (.inr h))
    · exact .inl (.inl (.inl h))
  · rintro (((h | h) | h) | h) <;> simp only [h, true_or, or_true]

theorem advances_edge (hpatient : source.IsPatient) (hc : c.IsNear source.text s)
    {result : Except Parser.Failure (EdgePattern × List Char)} (h : Parser.edge? s = some result) :
    (edge source c).Advances source.text c.position s result := by
  have hopens : (Parser.choice? Parser.openings s).isSome =
      ("<-[".toList.isPrefixOf (skip s) || "<~[".toList.isPrefixOf (skip s) ||
        "~[".toList.isPrefixOf (skip s) || "-[".toList.isPrefixOf (skip s)) := by
    rw [isSome_choice?]
    simp only [Parser.openings, List.any_cons, List.any_nil, Bool.or_false, Bool.or_assoc]
  refine ends_passing (skipBlanks_bind hpatient hc fun c hc => ?_)
  refine reaches_bind (reaches_isTextNext hc "<-[") fun c hc => ?_
  refine reaches_bind (reaches_isTextNext hc "<~[") fun c hc => ?_
  refine reaches_bind (reaches_isTextNext hc "~[") fun c hc => ?_
  refine reaches_bind (reaches_isTextNext hc "-[") fun c hc => ?_
  rw [Parser.edge?] at h
  cases hopening : Parser.choice? Parser.openings s with
  | some one =>
    obtain ⟨arrow, r⟩ := one
    rw [hopening] at h hopens
    obtain rfl := Option.some.inj h
    rw [← hopens, Option.isSome_some, if_pos rfl]
    have hlt := ((findsOne_choice hpatient (by decide) (by decide)).found hc.isNear_skip hopening).2
    exact (follows_fullEdge hpatient hc.isNear_skip hopening).advances hlt
  | none =>
    rw [hopening] at h hopens
    obtain ⟨⟨direction, r⟩, harrow, rfl⟩ := Option.map_eq_some_iff.mp h
    rw [← hopens, Option.isSome_none, if_neg Bool.false_ne_true]
    obtain ⟨hfound, hlt⟩ := (findsOne_choice hpatient (by decide) (by decide)).found hc.isNear_skip harrow
    exact reaches_bind hfound fun c hc => (follows_pure hc.isNear).advances hlt

/-! ## Quantifiers -/

theorem follows_bounds (hpatient : source.IsPatient) (hc : c.IsNear source.text s) :
    (bounds source c).Follows source.text c.position s (Parser.bounds s) := by
  refine follows_skipBlanks hpatient hc fun c hc => ?_
  refine follows_after (reaches_isDigitNext hc) fun c hc => ?_
  rw [Parser.bounds, Parser.isAtDigit]
  cases hdigit : (skip s).head?.any Char.isDigit with
  | true =>
    rw [if_pos rfl, if_pos rfl]
    refine follows_bind (follows_integer hpatient hc.isNear_skip) fun n r c hc _ => ?_
    refine (finds_tryChar hpatient ',').follows hc (fun u c hu hc _ => ?_) fun c hu hc => ?_
    · simp only [hu]
      refine follows_skipBlanks hpatient hc.isNear fun c hc => ?_
      refine follows_after (reaches_isDigitNext hc) fun c hc => ?_
      cases hbound : Parser.isAtDigit u with
      | true =>
        rw [Parser.isAtDigit] at hbound
        rw [hbound, if_pos rfl]
        exact follows_bind (follows_integer hpatient hc.isNear_skip) fun m v c hc _ => follows_pure hc
      | false =>
        rw [Parser.isAtDigit] at hbound
        rw [hbound, if_neg Bool.false_ne_true]
        exact follows_pure hc.isNear_skip
    · simp only [hu]
      exact follows_pure hc.isNear_skip
  | false =>
    rw [if_neg Bool.false_ne_true, if_neg Bool.false_ne_true]
    refine (finds_tryChar hpatient ',').follows hc.isNear_skip (fun u c hu hc _ => ?_) fun c hu hc => ?_
    · rw [hu]
      exact follows_map (follows_integer hpatient hc.isNear) fun m v c hc _ => follows_pure hc
    · rw [hu]
      exact follows_fail hc

theorem follows_quantifier (hpatient : source.IsPatient) (hc : c.IsNear source.text s) :
    (quantifier source c).Follows source.text c.position s (Parser.quantifier s) := by
  rw [Parser.quantifier]
  refine follows_passing ((finds_tryChar hpatient '*').follows hc (fun r c hr hc _ => ?_) fun c hr hc => ?_)
  · rw [hr]
    exact follows_pure hc.isNear
  rw [hr]
  refine (finds_tryChar hpatient '+').follows hc.isNear_skip (fun r c hr hc _ => ?_) fun c hr hc => ?_
  · rw [hr]
    exact follows_pure hc.isNear
  rw [hr]
  refine (finds_tryChar hpatient '?').follows hc.isNear_skip (fun r c hr hc _ => ?_) fun c hr hc => ?_
  · rw [hr]
    exact follows_pure hc.isNear
  rw [hr]
  refine (finds_tryChar hpatient '{').follows hc.isNear_skip (fun r c hr hc _ => ?_) fun c hr hc => ?_
  · rw [hr]
    refine follows_bind (follows_bounds hpatient hc.isNear) fun q u c hc _ => ?_
    exact follows_expect (ends_expectChar hpatient hc '}') fun v c hc _ => follows_pure hc
  · rw [hr]
    exact follows_pure hc.isNear_skip

end GraphPatterns.Scan
