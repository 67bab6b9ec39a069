/-
The text of a label expression keeps its meaning (`GraphPattern.parse_labels`). Lists of one part and lists
directly under lists of their kind leave no trace in the text, so another expression may be read back; it
holds where the first one holds and has the same names. A text is taken apart into factors between `&`
signs and conjunctions between bars, and the parts of a nested list take their place in the outer one
(`Spelled`).
-/
import GraphPatterns.Proofs.ReadLabels
import GraphPatterns.Proofs.SingleNodes

namespace GraphPatterns

namespace LabelExpr

open GraphPatterns.Parser

/-! ## Expressions of one meaning -/

mutual

/-- An expression that can be written: names stand where names do, and no list of parts is empty. -/
def Writable : LabelExpr → Prop
  | .name label => IsName label
  | .wildcard => True
  | .negation e => Writable e
  | .conjunction es => es ≠ [] ∧ AllWritable es
  | .disjunction es => es ≠ [] ∧ AllWritable es

def AllWritable : List LabelExpr → Prop
  | [] => True
  | e :: rest => Writable e ∧ AllWritable rest

end

/-- The expressions hold for the same labels and have the same names in the same order. -/
structure Agree (e e' : LabelExpr) : Prop where
  holds : ∀ has, e'.holds has = e.holds has
  names : e'.names = e.names

theorem Agree.refl (e : LabelExpr) : Agree e e := ⟨fun _ => rfl, rfl⟩

theorem Agree.trans {e e' e'' : LabelExpr} (h : Agree e e') (h' : Agree e' e'') : Agree e e'' :=
  ⟨fun has => (h'.holds has).trans (h.holds has), h'.names.trans h.names⟩

theorem Agree.negation {e e' : LabelExpr} (h : Agree e e') : Agree (.negation e) (.negation e') :=
  ⟨fun has => congrArg not (h.holds has), h.names⟩

section

variable (es es' : List LabelExpr)

theorem allHold_append (has : String → Bool) :
    allHold has (es ++ es') = (allHold has es && allHold has es') := by
  induction es with
  | nil => rfl
  | cons e es ih => rw [List.cons_append, allHold, allHold, ih, Bool.and_assoc]

theorem anyHolds_append (has : String → Bool) :
    anyHolds has (es ++ es') = (anyHolds has es || anyHolds has es') := by
  induction es with
  | nil => rfl
  | cons e es ih => rw [List.cons_append, anyHolds, anyHolds, ih, Bool.or_assoc]

theorem namesOfList_append : namesOfList (es ++ es') = namesOfList es ++ namesOfList es' := by
  induction es with
  | nil => rfl
  | cons e es ih => rw [List.cons_append, namesOfList, namesOfList, ih, List.append_assoc]

end

/-- What conjunction and disjunction have in common: one part says what it says alone, and parts that are
lists can be taken out of them. -/
structure Merges (join : List LabelExpr → LabelExpr) : Prop where
  single : ∀ e, Agree e (join [e])
  append : ∀ {e e' es es'}, Agree e (join es) → Agree (join e') (join es') →
    Agree (join (e :: e')) (join (es ++ es'))

theorem merges_conjunction : Merges .conjunction where
  single e := ⟨fun has => Bool.and_true _, List.append_nil _⟩
  append h h' := by
    refine ⟨fun has => ?_, ?_⟩
    · have hfirst : allHold has _ = _ := h.holds has
      have hrest : allHold has _ = allHold has _ := h'.holds has
      rw [holds, holds, allHold_append, allHold, hfirst, hrest]
    · have hfirst : namesOfList _ = _ := h.names
      have hrest : namesOfList _ = namesOfList _ := h'.names
      rw [names, names, namesOfList_append, namesOfList, hfirst, hrest]

theorem merges_disjunction : Merges .disjunction where
  single e := ⟨fun has => Bool.or_false _, List.append_nil _⟩
  append h h' := by
    refine ⟨fun has => ?_, ?_⟩
    · have hfirst : anyHolds has _ = _ := h.holds has
      have hrest : anyHolds has _ = anyHolds has _ := h'.holds has
      rw [holds, holds, anyHolds_append, anyHolds, hfirst, hrest]
    · have hfirst : namesOfList _ = _ := h.names
      have hrest : namesOfList _ = namesOfList _ := h'.names
      rw [names, names, namesOfList_append, namesOfList, hfirst, hrest]

theorem Merges.joined {join : List LabelExpr → LabelExpr} (h : Merges join) (es : List LabelExpr) :
    Agree (join es) (Parser.joined join es) := by
  match es with
  | [e] => exact ⟨fun has => ((h.single e).holds has).symm, (h.single e).names.symm⟩
  | [] | _ :: _ :: _ => exact .refl _

/-! ## Texts in parts -/

/-- The text is read as a factor where parentheses are nested to any depth. -/
def FactorText (t : List Char) (e : LabelExpr) : Prop :=
  ∀ depth bound : Nat, t.length ≤ depth → t.length ≤ bound →
    Reads (labelFactor (labelsWithin depth) bound) NameEnds t e

/-- The text is read as a conjunction, of one factor or more. -/
def ConjunctionText (t : List Char) (e : LabelExpr) : Prop :=
  ∀ depth : Nat, t.length ≤ depth →
    Reads (labelConjunction (labelsWithin depth)) (fun rest => NameEnds rest ∧ char? '&' rest = none) t e

/-- The text consists of parts with a separator between them, and the parts joined say what the expression
says. -/
structure Spelled (sep : Char) (part : List Char → LabelExpr → Prop) (join : List LabelExpr → LabelExpr)
    (t : List Char) (e : LabelExpr) (parts : List (List Char × LabelExpr)) : Prop where
  nonempty : parts ≠ []
  text : t = [sep].intercalate (parts.map Prod.fst)
  part : ∀ p ∈ parts, part p.1 p.2
  agree : Agree e (join (parts.map Prod.snd))

section

variable {sep : Char} {part : List Char → LabelExpr → Prop} {join : List LabelExpr → LabelExpr}
  {t : List Char} {e e' : LabelExpr} {es : List LabelExpr}

theorem Spelled.single (hjoin : Merges join) (hpart : part t e') (h : Agree e e') :
    Spelled sep part join t e [(t, e')] :=
  ⟨List.cons_ne_nil _ _, List.intercalate_singleton.symm, List.forall_mem_singleton.mpr hpart,
    h.trans (hjoin.single e')⟩

theorem exists_spelled_list (hjoin : Merges join) {text : LabelExpr → List Char} (hne : es ≠ [])
    (h : ∀ e ∈ es, ∃ parts, Spelled sep part join (text e) e parts) :
    ∃ parts, Spelled sep part join ([sep].intercalate (es.map text)) (join es) parts := by
  induction es with
  | nil => exact absurd rfl hne
  | cons e es ih =>
    rw [List.forall_mem_cons] at h
    obtain ⟨⟨parts, hparts⟩, hes⟩ := h
    by_cases hlast : es = []
    · subst hlast
      refine ⟨parts, hparts.nonempty, ?_, hparts.part, ?_⟩
      · rw [List.map_singleton, List.intercalate_singleton]
        exact hparts.text
      · have hsingle := hjoin.single e
        exact ⟨fun has => (hparts.agree.holds has).trans (hsingle.holds has).symm,
          hparts.agree.names.trans hsingle.names.symm⟩
    · obtain ⟨parts', hparts'⟩ := ih hlast hes
      refine ⟨parts ++ parts', by simp [hparts.nonempty], ?_, ?_, ?_⟩
      · have htexts : List.map text (e :: es) = [text e] ++ es.map text := rfl
        rw [htexts, intercalate_append [sep] (List.cons_ne_nil _ _) (by simpa using hlast),
          List.intercalate_singleton, hparts'.text, List.map_append,
          intercalate_append [sep] (by simpa using hparts.nonempty) (by simpa using hparts'.nonempty),
          ← hparts.text]
      · simp only [List.mem_append]
        rintro p (hp | hp)
        · exact hparts.part p hp
        · exact hparts'.part p hp
      · rw [List.map_append]
        exact hjoin.append hparts.agree hparts'.agree

end

theorem Spelled.conjunctionText {t : List Char} {e : LabelExpr} {parts : List (List Char × LabelExpr)}
    (h : Spelled '&' FactorText .conjunction t e parts) :
    ∃ e', ConjunctionText t e' ∧ Agree e e' := by
  refine ⟨joined .conjunction (parts.map Prod.snd), ?_, h.agree.trans (merges_conjunction.joined _)⟩
  intro depth hdepth
  have hitems : ∀ p ∈ parts, Reads (fun s => labelFactor (labelsWithin depth) (s.length + 1) s)
      NameEnds p.1 p.2 := by
    intro p hp
    have hlength : p.1.length ≤ depth := by
      refine Nat.le_trans ?_ hdepth
      rw [h.text]
      exact length_le_intercalate _ (List.mem_map_of_mem hp)
    refine ⟨(h.part p hp depth _ hlength (Nat.le_refl _)).starts, ?_⟩
    intro s rest hs hrest
    have hskip := length_skip_le s
    rw [hs, List.length_append] at hskip
    exact (h.part p hp depth (s.length + 1) hlength (by omega)).run hs hrest
  rw [h.text]
  exact (reads_separated (char? '&') ['&'] (fun r => ⟨r, rfl, rfl⟩) (fun r => by rintro c ⟨⟩; rfl)
    h.nonempty hitems).map (joined .conjunction)

theorem Spelled.reads_labels {t : List Char} {e : LabelExpr} {parts : List (List Char × LabelExpr)}
    (h : Spelled '|' ConjunctionText .disjunction t e parts) :
    ∃ e', Agree e e' ∧ ∀ depth, t.length ≤ depth → Reads (labelsWithin (depth + 1)) LabelEnds t e' := by
  refine ⟨joined .disjunction (parts.map Prod.snd), h.agree.trans (merges_disjunction.joined _), ?_⟩
  intro depth hdepth
  have hitems : ∀ p ∈ parts, Reads (labelConjunction (labelsWithin depth))
      (fun rest => NameEnds rest ∧ char? '&' rest = none) p.1 p.2 := by
    intro p hp
    refine h.part p hp depth (Nat.le_trans ?_ hdepth)
    rw [h.text]
    exact length_le_intercalate _ (List.mem_map_of_mem hp)
  rw [h.text]
  have hread := (reads_separated (char? '|') ['|'] (fun r => ⟨r, rfl, rfl⟩)
    (fun r => ⟨by rintro c ⟨⟩; rfl, rfl⟩) h.nonempty hitems).map (joined .disjunction)
  exact hread.mono fun rest hrest => ⟨⟨hrest.nameEnds, hrest.noAnd⟩, hrest.noOr⟩

theorem Spelled.factorText {t : List Char} {e : LabelExpr} {parts : List (List Char × LabelExpr)}
    (h : Spelled '|' ConjunctionText .disjunction t e parts) :
    ∃ e', FactorText ('(' :: (t ++ [')'])) e' ∧ Agree e e' := by
  obtain ⟨e', hagree, hread⟩ := h.reads_labels
  refine ⟨e', ?_, hagree⟩
  intro depth bound hdepth hbound
  simp only [List.length_cons, List.length_append] at hdepth hbound
  obtain ⟨depth, rfl⟩ := Nat.exists_eq_add_one_of_ne_zero (by omega : depth ≠ 0)
  obtain ⟨bound, rfl⟩ := Nat.exists_eq_add_one_of_ne_zero (by omega : bound ≠ 0)
  refine ⟨⟨'(', _, rfl, rfl, by decide⟩, ?_⟩
  intro s rest hs _
  rw [List.cons_append, List.append_assoc] at hs
  have hclose : LabelEnds (')' :: rest) := ⟨by rintro c ⟨⟩; rfl, rfl, rfl⟩
  have hrun : labelsWithin (depth + 1) (t ++ ')' :: rest) = .ok (e', ')' :: rest) :=
    (hread depth (by omega)).run_append hclose
  rw [labelFactor, char?_eq_none hs (by decide), char?_of_skip hs]
  dsimp only
  rw [List.singleton_append, hrun, ok_bind]
  rfl

/-! ## Rereading -/

/-- What is read where the text of the expression stands after a negation, as a part of a conjunction and
alone. -/
structure Rereads (e : LabelExpr) : Prop where
  factor : ∃ e', FactorText e.factorText.toList e' ∧ Agree e e'
  part : ∃ parts, Spelled '&' FactorText .conjunction e.renderPart.toList e parts
  whole : ∃ parts, Spelled '|' ConjunctionText .disjunction e.render.toList e parts

namespace Rereads

variable {e : LabelExpr} {es : List LabelExpr}

theorem whole_of_part (he : e.isDisjunction = false)
    (h : ∃ parts, Spelled '&' FactorText .conjunction e.renderPart.toList e parts) :
    ∃ parts, Spelled '|' ConjunctionText .disjunction e.render.toList e parts := by
  obtain ⟨parts, hparts⟩ := h
  obtain ⟨e', htext, hagree⟩ := hparts.conjunctionText
  rw [renderPart, he, if_neg Bool.false_ne_true] at htext
  exact ⟨_, .single merges_disjunction htext hagree⟩

theorem of_factor (he : e.isJoined = false) (h : ∃ e', FactorText e.factorText.toList e' ∧ Agree e e') :
    e.Rereads := by
  have hdisjunction : e.isDisjunction = false := by cases e <;> first | rfl | cases he
  have hconjunction : e.isConjunction = false := by cases e <;> first | rfl | cases he
  have hpart : ∃ parts, Spelled '&' FactorText .conjunction e.renderPart.toList e parts := by
    obtain ⟨e', htext, hagree⟩ := h
    rw [renderPart_of_not hconjunction]
    exact ⟨_, .single merges_conjunction htext hagree⟩
  exact ⟨h, hpart, whole_of_part hdisjunction hpart⟩

theorem of_whole (he : e.isJoined = true)
    (h : ∃ parts, Spelled '|' ConjunctionText .disjunction e.render.toList e parts) :
    ∃ e', FactorText e.factorText.toList e' ∧ Agree e e' := by
  obtain ⟨parts, hparts⟩ := h
  rw [factorText, if_pos he, toList_parenthesized]
  exact hparts.factorText

theorem of_conjunction (hne : es ≠ []) (h : ∀ e ∈ es, e.Rereads) : (conjunction es).Rereads := by
  have htext : (conjunction es).renderPart.toList = ['&'].intercalate (es.map fun e => e.renderPart.toList) := by
    rw [← intercalate_conjuncts, conjuncts, String.toList_intercalate, List.map_map]
    rfl
  have hpart : ∃ parts, Spelled '&' FactorText .conjunction (conjunction es).renderPart.toList
      (conjunction es) parts := by
    rw [htext]
    exact exists_spelled_list merges_conjunction hne fun e he => (h e he).part
  have hwhole := whole_of_part rfl hpart
  exact ⟨of_whole rfl hwhole, hpart, hwhole⟩

theorem of_disjunction (hne : es ≠ []) (h : ∀ e ∈ es, e.Rereads) : (disjunction es).Rereads := by
  have htext : (disjunction es).render.toList = ['|'].intercalate (es.map fun e => e.render.toList) := by
    rw [← intercalate_disjuncts, disjuncts, String.toList_intercalate, List.map_map]
    rfl
  have hwhole : ∃ parts, Spelled '|' ConjunctionText .disjunction (disjunction es).render.toList
      (disjunction es) parts := by
    rw [htext]
    exact exists_spelled_list merges_disjunction hne fun e he => (h e he).whole
  have hfactor := of_whole rfl hwhole
  refine ⟨hfactor, ?_, hwhole⟩
  obtain ⟨e', hfactor, hagree⟩ := hfactor
  exact ⟨_, .single merges_conjunction hfactor hagree⟩

theorem of_name {label : String} (h : IsName label) : (name label).Rereads := by
  refine of_factor rfl ⟨.name label, ?_, .refl _⟩
  exact (reads_factors (.name label) h trivial).2

theorem of_wildcard : wildcard.Rereads := by
  refine of_factor rfl ⟨.wildcard, ?_, .refl _⟩
  exact (reads_factors .wildcard trivial trivial).2

theorem of_negation (h : e.Rereads) : (negation e).Rereads := by
  obtain ⟨e', hfactor, hagree⟩ := h.factor
  have htext : (factorText (.negation e)).toList = '!' :: e.factorText.toList := by
    change ("!" ++ e.factorText).toList = _
    rw [String.toList_append]
    rfl
  refine of_factor rfl ⟨.negation e', ?_, hagree.negation⟩
  intro depth bound hdepth hbound
  rw [htext] at hdepth hbound ⊢
  simp only [List.length_cons] at hdepth hbound
  obtain ⟨bound, rfl⟩ := Nat.exists_eq_add_one_of_ne_zero (by omega : bound ≠ 0)
  refine ⟨⟨'!', _, rfl, rfl, by decide⟩, ?_⟩
  intro s rest hs hrest
  have hrun := (hfactor depth bound (by omega) (by omega)).run_append hrest
  rw [List.cons_append] at hs
  rw [labelFactor, char?_of_skip hs]
  dsimp only
  rw [hrun, ok_bind]
  rfl

end Rereads

mutual

/-- By recursion on the expression, with one case for each way to make one. -/
theorem rereads (e : LabelExpr) (h : e.Writable) : e.Rereads := by
  cases e with
  | name label => exact .of_name h
  | wildcard => exact .of_wildcard
  | negation e => exact .of_negation (rereads e h)
  | conjunction es => exact .of_conjunction h.1 (rereadsAll es h.2)
  | disjunction es => exact .of_disjunction h.1 (rereadsAll es h.2)

theorem rereadsAll (es : List LabelExpr) (h : AllWritable es) : ∀ e ∈ es, e.Rereads := by
  cases es with
  | nil => exact fun e he => (List.not_mem_nil he).elim
  | cons e es => exact List.forall_mem_cons.mpr ⟨rereads e h.1, rereadsAll es h.2⟩

end

end LabelExpr

open GraphPatterns.Parser

/-! ## Node patterns -/

theorem Parser.node_labels {e : LabelExpr} {t : List Char}
    (h : ∀ depth, t.length ≤ depth → Reads (labelsWithin (depth + 1)) LabelExpr.LabelEnds t e) :
    node ('(' :: ':' :: (t ++ [')'])) = .ok ({ label := some e }, []) := by
  have hclose : LabelExpr.LabelEnds [')'] := ⟨by rintro c ⟨⟩; rfl, rfl, rfl⟩
  have hread : labelsWithin ((t ++ [')']).length + 1) (t ++ [')']) = .ok (e, [')']) :=
    (h _ (by simp)).run_append hclose
  have hopen : expectChar '(' ('(' :: ':' :: (t ++ [')'])) = .ok (':' :: (t ++ [')'])) := rfl
  have hname : elementName (':' :: (t ++ [')'])) = .ok (none, ':' :: (t ++ [')'])) := rfl
  have hlabels : labels (':' :: (t ++ [')'])) = .ok (some e, [')']) := by
    have hcolon : (char? ':' (':' :: (t ++ [')']))).or (keyword? "IS" (':' :: (t ++ [')']))) =
        some (t ++ [')']) := rfl
    rw [labels, hcolon]
    dsimp only
    rw [hread]
    rfl
  rw [node, hopen, ok_bind, filler, hname, ok_bind]
  dsimp only
  rw [hlabels]
  rfl

/-- **Label expressions keep their meaning.** The text of a label expression is read, as the label of a
node, as an expression that holds for the same labels and has the same names in the same order. -/
theorem GraphPattern.parse_labels {e : LabelExpr} (h : e.Writable) :
    ∃ e', parse ("(:" ++ e.render ++ ")") = .ok (.single { label := some e' }) ∧ e.Agree e' := by
  obtain ⟨parts, hparts⟩ := (e.rereads h).whole
  obtain ⟨e', hagree, hread⟩ := hparts.reads_labels
  refine ⟨e', ?_, hagree⟩
  have htext : ("(:" ++ e.render ++ ")").toList = '(' :: ':' :: (e.render.toList ++ [')']) := by
    simp [String.toList_append]
  rw [parse, htext, text_node (fun inner => ⟨_, rfl⟩) (node_labels hread)]

/-- The text `(a|b)&c|d` has no trace of the lists of one part, nor of the disjunction in the
disjunction. -/
theorem GraphPattern.parse_labels_nested :
    ∃ e', parse ("(:" ++ (LabelExpr.disjunction [.conjunction [.conjunction [.disjunction
        [.name "a", .name "b"]], .name "c"], .disjunction [.name "d"]]).render ++ ")") =
      .ok (.single { label := some e' }) ∧
      (LabelExpr.disjunction [.conjunction [.conjunction [.disjunction [.name "a", .name "b"]],
        .name "c"], .disjunction [.name "d"]]).Agree e' := by
  have hname {c : Char} (hc : isNameStart c = true) : IsName (String.ofList [c]) :=
    ⟨c, [], String.toList_ofList, hc, by simp⟩
  refine parse_labels ?_
  simp only [LabelExpr.Writable, LabelExpr.AllWritable, ne_eq, List.cons_ne_nil, not_false_eq_true,
    true_and, and_true]
  exact ⟨⟨⟨hname (c := 'a') (by decide), hname (c := 'b') (by decide)⟩, hname (c := 'c') (by decide)⟩,
    hname (c := 'd') (by decide)⟩

end GraphPatterns
