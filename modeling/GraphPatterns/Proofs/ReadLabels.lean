/-
Label expressions are read back. No parentheses are written around a conjunction in a conjunction or a
disjunction in a disjunction, so what is read back is the flat form of the expression
(`LabelExpr.flatten`), which has the same text.
-/
import GraphPatterns.Pattern.Parser.Element
import GraphPatterns.Proofs.Reading

namespace GraphPatterns.LabelExpr

open GraphPatterns.Parser

/-! ## Flat expressions -/

def isConjunction : LabelExpr → Bool
  | .conjunction _ => true
  | _ => false

/-- The parts of a conjunction; anything else is a single part. -/
def conjuncts : LabelExpr → List LabelExpr
  | .conjunction es => es
  | e => [e]

/-- The parts of a disjunction; anything else is a single part. -/
def disjuncts : LabelExpr → List LabelExpr
  | .disjunction es => es
  | e => [e]

mutual

/-- The expression without conjunctions directly under conjunctions and disjunctions directly under
disjunctions. -/
def flatten : LabelExpr → LabelExpr
  | .name label => .name label
  | .wildcard => .wildcard
  | .negation e => .negation (flatten e)
  | .conjunction es => .conjunction ((flattenAll es).flatMap conjuncts)
  | .disjunction es => .disjunction ((flattenAll es).flatMap disjuncts)

def flattenAll : List LabelExpr → List LabelExpr
  | [] => []
  | e :: rest => flatten e :: flattenAll rest

end

mutual

/-- An expression of the language: names where names stand, and at least two parts wherever parts are
joined. -/
def WellFormed : LabelExpr → Prop
  | .name label => IsName label
  | .wildcard => True
  | .negation e => WellFormed e
  | .conjunction es => 2 ≤ es.length ∧ AllWellFormed es
  | .disjunction es => 2 ≤ es.length ∧ AllWellFormed es

def AllWellFormed : List LabelExpr → Prop
  | [] => True
  | e :: rest => WellFormed e ∧ AllWellFormed rest

end

mutual

/-- No conjunction stands directly under a conjunction and no disjunction under a disjunction. -/
def IsFlat : LabelExpr → Prop
  | .name _ => True
  | .wildcard => True
  | .negation e => IsFlat e
  | .conjunction es => AllFlat es ∧ ∀ e ∈ es, e.isConjunction = false
  | .disjunction es => AllFlat es ∧ ∀ e ∈ es, e.isDisjunction = false

def AllFlat : List LabelExpr → Prop
  | [] => True
  | e :: rest => IsFlat e ∧ AllFlat rest

end

theorem flattenAll_eq (es : List LabelExpr) : flattenAll es = es.map flatten := by
  induction es with
  | nil => rfl
  | cons e es ih => rw [flattenAll, ih, List.map_cons]

theorem allWellFormed_iff {es : List LabelExpr} : AllWellFormed es ↔ ∀ e ∈ es, e.WellFormed := by
  induction es with
  | nil => exact ⟨fun _ _ h => (List.not_mem_nil h).elim, fun _ => trivial⟩
  | cons e es ih => rw [AllWellFormed, ih, List.forall_mem_cons]

theorem allFlat_iff {es : List LabelExpr} : AllFlat es ↔ ∀ e ∈ es, e.IsFlat := by
  induction es with
  | nil => exact ⟨fun _ _ h => (List.not_mem_nil h).elim, fun _ => trivial⟩
  | cons e es ih => rw [AllFlat, ih, List.forall_mem_cons]

theorem renderAll_eq (es : List LabelExpr) : renderAll es = es.map render := by
  induction es with
  | nil => rfl
  | cons e es ih => rw [renderAll, ih, List.map_cons]

/-- A part of a conjunction as it is written. -/
def renderPart (e : LabelExpr) : String := if e.isDisjunction then parenthesized e.render else e.render

theorem renderParts_eq (es : List LabelExpr) : renderParts es = es.map renderPart := by
  induction es with
  | nil => rfl
  | cons e es ih => rw [renderParts, ih, List.map_cons, renderPart]

@[simp] theorem isDisjunction_flatten (e : LabelExpr) : (flatten e).isDisjunction = e.isDisjunction := by
  cases e <;> rfl

@[simp] theorem isJoined_flatten (e : LabelExpr) : (flatten e).isJoined = e.isJoined := by
  cases e <;> rfl

section

variable {e : LabelExpr} {es : List LabelExpr}

theorem conjuncts_ne_nil (h : e.WellFormed) : e.conjuncts ≠ [] := by
  cases e with
  | conjunction es => exact List.ne_nil_of_length_pos (Nat.lt_of_lt_of_le Nat.zero_lt_two h.1)
  | _ => exact List.cons_ne_nil _ _

theorem disjuncts_ne_nil (h : e.WellFormed) : e.disjuncts ≠ [] := by
  cases e with
  | disjunction es => exact List.ne_nil_of_length_pos (Nat.lt_of_lt_of_le Nat.zero_lt_two h.1)
  | _ => exact List.cons_ne_nil _ _

theorem wellFormed_of_mem_conjuncts (h : e.WellFormed) : ∀ x ∈ e.conjuncts, x.WellFormed := by
  cases e with
  | conjunction es => exact allWellFormed_iff.mp h.2
  | _ => exact List.forall_mem_singleton.mpr h

theorem wellFormed_of_mem_disjuncts (h : e.WellFormed) : ∀ x ∈ e.disjuncts, x.WellFormed := by
  cases e with
  | disjunction es => exact allWellFormed_iff.mp h.2
  | _ => exact List.forall_mem_singleton.mpr h

theorem flat_of_mem_conjuncts (h : e.IsFlat) :
    ∀ x ∈ e.conjuncts, x.IsFlat ∧ x.isConjunction = false := by
  cases e with
  | conjunction es => exact fun x hx => ⟨allFlat_iff.mp h.1 x hx, h.2 x hx⟩
  | _ => exact List.forall_mem_singleton.mpr ⟨h, rfl⟩

theorem flat_of_mem_disjuncts (h : e.IsFlat) :
    ∀ x ∈ e.disjuncts, x.IsFlat ∧ x.isDisjunction = false := by
  cases e with
  | disjunction es => exact fun x hx => ⟨allFlat_iff.mp h.1 x hx, h.2 x hx⟩
  | _ => exact List.forall_mem_singleton.mpr ⟨h, rfl⟩

/-- Splitting parts up does not make them fewer. -/
theorem length_le_flatMap_split {split : LabelExpr → List LabelExpr} (h : ∀ e ∈ es, split e ≠ []) :
    es.length ≤ (es.flatMap split).length := by
  induction es with
  | nil => exact Nat.le_refl 0
  | cons e es ih =>
    rw [List.forall_mem_cons] at h
    have hfirst := List.length_pos_iff.mpr h.1
    have hrest := ih h.2
    rw [List.flatMap_cons, List.length_append, List.length_cons]
    omega

end

mutual

theorem wellFormed_flatten (e : LabelExpr) (h : e.WellFormed) : (flatten e).WellFormed := by
  cases e with
  | name label => exact h
  | wildcard => trivial
  | negation e => exact wellFormed_flatten e h
  | conjunction es =>
    have hall := wellFormed_flattenAll es h.2
    have hlength := length_le_flatMap_split fun e he => conjuncts_ne_nil (hall e he)
    rw [flattenAll_eq, List.length_map] at hlength
    refine ⟨h.1.trans (by rwa [flattenAll_eq]), allWellFormed_iff.mpr fun x hx => ?_⟩
    obtain ⟨e, he, hx⟩ := List.mem_flatMap.mp hx
    exact wellFormed_of_mem_conjuncts (hall e he) x hx
  | disjunction es =>
    have hall := wellFormed_flattenAll es h.2
    have hlength := length_le_flatMap_split fun e he => disjuncts_ne_nil (hall e he)
    rw [flattenAll_eq, List.length_map] at hlength
    refine ⟨h.1.trans (by rwa [flattenAll_eq]), allWellFormed_iff.mpr fun x hx => ?_⟩
    obtain ⟨e, he, hx⟩ := List.mem_flatMap.mp hx
    exact wellFormed_of_mem_disjuncts (hall e he) x hx

theorem wellFormed_flattenAll (es : List LabelExpr) (h : AllWellFormed es) :
    ∀ e ∈ flattenAll es, e.WellFormed := by
  cases es with
  | nil => exact fun e he => (List.not_mem_nil he).elim
  | cons e es =>
    exact List.forall_mem_cons.mpr ⟨wellFormed_flatten e h.1, wellFormed_flattenAll es h.2⟩

end

mutual

theorem isFlat_flatten (e : LabelExpr) : (flatten e).IsFlat := by
  cases e with
  | name label => trivial
  | wildcard => trivial
  | negation e => exact isFlat_flatten e
  | conjunction es =>
    have hparts : ∀ x ∈ (flattenAll es).flatMap conjuncts, x.IsFlat ∧ x.isConjunction = false := by
      intro x hx
      obtain ⟨e, he, hx⟩ := List.mem_flatMap.mp hx
      exact flat_of_mem_conjuncts (isFlat_flattenAll es e he) x hx
    exact ⟨allFlat_iff.mpr fun x hx => (hparts x hx).1, fun x hx => (hparts x hx).2⟩
  | disjunction es =>
    have hparts : ∀ x ∈ (flattenAll es).flatMap disjuncts, x.IsFlat ∧ x.isDisjunction = false := by
      intro x hx
      obtain ⟨e, he, hx⟩ := List.mem_flatMap.mp hx
      exact flat_of_mem_disjuncts (isFlat_flattenAll es e he) x hx
    exact ⟨allFlat_iff.mpr fun x hx => (hparts x hx).1, fun x hx => (hparts x hx).2⟩

theorem isFlat_flattenAll (es : List LabelExpr) : ∀ e ∈ flattenAll es, e.IsFlat := by
  cases es with
  | nil => exact fun e he => (List.not_mem_nil he).elim
  | cons e es => exact List.forall_mem_cons.mpr ⟨isFlat_flatten e, isFlat_flattenAll es⟩

end

/-! ## Texts -/

theorem intercalate_flatMap {sep : String} {split : LabelExpr → List LabelExpr}
    {part : LabelExpr → String} {es : List LabelExpr} (hsplit : ∀ e ∈ es, split e ≠ [])
    (hpart : ∀ e ∈ es, sep.intercalate ((split e).map part) = part e) :
    sep.intercalate ((es.flatMap split).map part) = sep.intercalate (es.map part) := by
  set texts := fun e => ((split e).map part).map String.toList
  have hne : [] ∉ es.map texts := by
    simp only [texts, List.mem_map, List.map_eq_nil_iff, not_exists, not_and]
    exact hsplit
  have hsplit : ((es.flatMap split).map part).map String.toList = (es.map texts).flatten := by
    rw [← List.flatMap_def, List.map_flatMap, List.map_flatMap]
  have hjoined : (es.map texts).map sep.toList.intercalate = (es.map part).map String.toList := by
    rw [List.map_map, List.map_map]
    refine List.map_congr_left fun e he => ?_
    rw [Function.comp_apply, Function.comp_apply, ← hpart e he, String.toList_intercalate]
  apply String.toList_inj.mp
  rw [String.toList_intercalate, String.toList_intercalate, hsplit, intercalate_flatten _ hne, hjoined]

theorem intercalate_conjuncts (e : LabelExpr) :
    "&".intercalate (e.conjuncts.map renderPart) = e.renderPart := by
  cases e with
  | conjunction es => rw [conjuncts, ← renderParts_eq]; rfl
  | _ => rfl

theorem intercalate_disjuncts (e : LabelExpr) : "|".intercalate (e.disjuncts.map render) = e.render := by
  cases e with
  | disjunction es => rw [disjuncts, ← renderAll_eq]; rfl
  | _ => rfl

mutual

theorem render_flatten (e : LabelExpr) (h : e.WellFormed) : (flatten e).render = e.render := by
  cases e with
  | name label => rfl
  | wildcard => rfl
  | negation e => rw [flatten, render, render, isJoined_flatten, render_flatten e h]
  | conjunction es =>
    have hparts : (flattenAll es).map renderPart = es.map renderPart := by
      rw [flattenAll_eq, List.map_map]
      refine List.map_congr_left fun e he => ?_
      rw [Function.comp_apply, renderPart, renderPart, isDisjunction_flatten, render_flattenAll es h.2 e he]
    rw [flatten, render, render, renderParts_eq, renderParts_eq, ← hparts]
    exact intercalate_flatMap (fun e he => conjuncts_ne_nil (wellFormed_flattenAll es h.2 e he))
      fun e _ => intercalate_conjuncts e
  | disjunction es =>
    have hparts : (flattenAll es).map render = es.map render := by
      rw [flattenAll_eq, List.map_map]
      exact List.map_congr_left fun e he => render_flattenAll es h.2 e he
    rw [flatten, render, render, renderAll_eq, renderAll_eq, ← hparts]
    exact intercalate_flatMap (fun e he => disjuncts_ne_nil (wellFormed_flattenAll es h.2 e he))
      fun e _ => intercalate_disjuncts e

theorem render_flattenAll (es : List LabelExpr) (h : AllWellFormed es) :
    ∀ e ∈ es, (flatten e).render = e.render := by
  cases es with
  | nil => exact fun e he => (List.not_mem_nil he).elim
  | cons e es => exact List.forall_mem_cons.mpr ⟨render_flatten e h.1, render_flattenAll es h.2⟩

end

/-! ## Reading -/

/-- The expression as it stands after a negation. -/
def factorText (e : LabelExpr) : String := if e.isJoined then parenthesized e.render else e.render

theorem toList_parenthesized (s : String) : (parenthesized s).toList = '(' :: (s.toList ++ [')']) := by
  rw [parenthesized, String.toList_append, String.toList_append]
  rfl

theorem renderPart_of_not {e : LabelExpr} (h : e.isConjunction = false) : e.renderPart = e.factorText := by
  cases e <;> first | rfl | cases h

theorem joined_conjuncts {e : LabelExpr} (h : e.WellFormed) : joined .conjunction e.conjuncts = e := by
  cases e with
  | conjunction es =>
    obtain ⟨e, e', es, rfl⟩ := exists_cons_cons h.1
    rfl
  | _ => rfl

theorem joined_disjuncts {e : LabelExpr} (h : e.WellFormed) : joined .disjunction e.disjuncts = e := by
  cases e with
  | disjunction es =>
    obtain ⟨e, e', es, rfl⟩ := exists_cons_cons h.1
    rfl
  | _ => rfl

/-- A text at which a label expression ends. -/
structure LabelEnds (rest : List Char) : Prop where
  nameEnds : NameEnds rest
  noAnd : char? '&' rest = none
  noOr : char? '|' rest = none

/-- The expression is read after any number of negations, where parentheses are nested to a depth. -/
def ReadsFactor (e : LabelExpr) : Prop :=
  ∀ depth bound : Nat, e.factorText.toList.length ≤ depth → e.factorText.toList.length ≤ bound →
    Reads (labelFactor (labelsWithin depth) bound) NameEnds e.factorText.toList e

/-- Where the parts of a conjunction are read, so is the conjunction. -/
theorem reads_conjunction {e : LabelExpr} (hw : e.WellFormed) (hf : e.IsFlat)
    (he : e.isDisjunction = false) (hparts : ∀ x ∈ e.conjuncts, x.ReadsFactor) {depth : Nat}
    (hdepth : e.render.toList.length ≤ depth) :
    Reads (labelConjunction (labelsWithin depth)) (fun rest => NameEnds rest ∧ char? '&' rest = none)
      e.render.toList e := by
  have htext : e.render.toList = ['&'].intercalate (e.conjuncts.map fun x => x.factorText.toList) := by
    have hpart : e.renderPart = e.render := if_neg (by rw [he]; exact Bool.false_ne_true)
    rw [← hpart, ← intercalate_conjuncts, String.toList_intercalate, List.map_map]
    refine congrArg _ (List.map_congr_left fun x hx => ?_)
    rw [Function.comp_apply, renderPart_of_not (flat_of_mem_conjuncts hf x hx).2]
  have hitems : ∀ x ∈ e.conjuncts, Reads (fun s => labelFactor (labelsWithin depth) (s.length + 1) s)
      NameEnds x.factorText.toList x := fun x hx => by
    have hlength : x.factorText.toList.length ≤ depth := by
      refine Nat.le_trans ?_ hdepth
      rw [htext]
      exact length_le_intercalate _ (List.mem_map.mpr ⟨x, hx, rfl⟩)
    refine ⟨(hparts x hx _ _ hlength (Nat.le_refl _)).starts, fun {s rest} hs hrest => ?_⟩
    have hskip := length_skip_le s
    rw [hs, List.length_append] at hskip
    exact (hparts x hx _ (s.length + 1) hlength (by omega)).run hs hrest
  have hread := (reads_separated (char? '&') ['&'] (fun r => ⟨r, rfl, rfl⟩)
    (fun r => by rintro c ⟨⟩; rfl) (conjuncts_ne_nil hw) hitems).map (joined .conjunction)
  rw [List.map_id', joined_conjuncts hw, ← htext] at hread
  exact hread

/-- Where the parts of the conjunctions in a disjunction are read, so is the disjunction. -/
theorem reads_disjunction {e : LabelExpr} (hw : e.WellFormed) (hf : e.IsFlat)
    (hparts : ∀ x ∈ e.disjuncts, ∀ y ∈ x.conjuncts, y.ReadsFactor) {depth : Nat}
    (hdepth : e.render.toList.length ≤ depth) :
    Reads (labelDisjunction (labelsWithin depth)) LabelEnds e.render.toList e := by
  have htext : e.render.toList = ['|'].intercalate (e.disjuncts.map fun x => x.render.toList) := by
    conv => lhs; rw [← intercalate_disjuncts, String.toList_intercalate, List.map_map]
    rfl
  have hitems : ∀ x ∈ e.disjuncts, Reads (labelConjunction (labelsWithin depth))
      (fun rest => NameEnds rest ∧ char? '&' rest = none) x.render.toList x := fun x hx => by
    obtain ⟨hflat, hnot⟩ := flat_of_mem_disjuncts hf x hx
    refine reads_conjunction (wellFormed_of_mem_disjuncts hw x hx) hflat hnot (hparts x hx) ?_
    refine Nat.le_trans ?_ hdepth
    rw [htext]
    exact length_le_intercalate _ (List.mem_map.mpr ⟨x, hx, rfl⟩)
  have hread := (reads_separated (char? '|') ['|'] (fun r => ⟨r, rfl, rfl⟩)
    (fun r => ⟨by rintro c ⟨⟩; rfl, rfl⟩) (disjuncts_ne_nil hw) hitems).map (joined .disjunction)
  rw [List.map_id', joined_disjuncts hw, ← htext] at hread
  exact hread.mono fun rest hrest => ⟨⟨hrest.nameEnds, hrest.noAnd⟩, hrest.noOr⟩

/-- A joined expression is read between parentheses. -/
theorem readsFactor_of_joined {e : LabelExpr} (hw : e.WellFormed) (hf : e.IsFlat)
    (he : e.isJoined = true) (hparts : ∀ x ∈ e.disjuncts, ∀ y ∈ x.conjuncts, y.ReadsFactor) :
    e.ReadsFactor := by
  intro depth bound hdepth hbound
  have htext : e.factorText.toList = '(' :: (e.render.toList ++ [')']) := by
    rw [factorText, if_pos he, toList_parenthesized]
  rw [htext] at hdepth hbound ⊢
  simp only [List.length_cons, List.length_append] at hdepth hbound
  refine ⟨⟨'(', _, rfl, rfl, by decide⟩, fun {s rest} hs _ => ?_⟩
  rw [List.cons_append, List.append_assoc] at hs
  cases depth with
  | zero => omega
  | succ depth =>
  cases bound with
  | zero => omega
  | succ bound =>
  have hclose : LabelEnds (')' :: rest) := ⟨by rintro c ⟨⟩; rfl, rfl, rfl⟩
  have hrun : labelsWithin (depth + 1) (e.render.toList ++ ')' :: rest) = .ok (e, ')' :: rest) :=
    (reads_disjunction hw hf hparts (by omega)).run_append hclose
  rw [labelFactor, char?_eq_none hs (by decide), char?_of_skip hs]
  dsimp only
  rw [List.singleton_append, hrun, ok_bind]
  rfl

mutual

/-- The parts of a flat expression are read, by recursion on the expression. -/
theorem reads_factors (e : LabelExpr) (hw : e.WellFormed) (hf : e.IsFlat) :
    (∀ y ∈ e.conjuncts, y.ReadsFactor) ∧ e.ReadsFactor := by
  cases e with
  | name label =>
    have hself : ReadsFactor (.name label) := fun depth bound _ hbound => by
      refine ⟨hw.starts, fun {s rest} hs hrest => ?_⟩
      obtain ⟨c, cs, hcs, hc, -⟩ := id hw
      have hpart := isNamePart_of_isNameStart hc
      have hskip : skip s = c :: (cs ++ rest) := hs.trans (congrArg (· ++ rest) hcs)
      cases bound with
      | zero => exact absurd hbound (Nat.not_le.mpr hw.starts.length_pos)
      | succ bound =>
      rw [labelFactor, char?_eq_none hskip (ne_of_test hpart rfl),
        char?_eq_none hskip (ne_of_test hpart rfl), char?_eq_none hskip (ne_of_test hpart rfl)]
      dsimp only
      rw [identifier_of_skip hw hs hrest]
      rfl
    exact ⟨List.forall_mem_singleton.mpr hself, hself⟩
  | wildcard =>
    have hself : ReadsFactor .wildcard := fun depth bound _ hbound => by
      refine ⟨⟨'%', [], rfl, rfl, by decide⟩, fun {s rest} hs _ => ?_⟩
      have hskip : skip s = '%' :: rest := hs
      cases bound with
      | zero => exact absurd hbound (by decide)
      | succ bound =>
      rw [labelFactor, char?_eq_none hskip (by decide), char?_eq_none hskip (by decide),
        char?_of_skip hskip]
    exact ⟨List.forall_mem_singleton.mpr hself, hself⟩
  | negation e =>
    have he := (reads_factors e hw hf).2
    have htext : (factorText (.negation e)).toList = '!' :: e.factorText.toList := by
      change ("!" ++ e.factorText).toList = _
      rw [String.toList_append]
      rfl
    have hself : ReadsFactor (.negation e) := fun depth bound hdepth hbound => by
      rw [htext] at hdepth hbound ⊢
      simp only [List.length_cons] at hdepth hbound
      refine ⟨⟨'!', _, rfl, rfl, by decide⟩, fun {s rest} hs hrest => ?_⟩
      cases bound with
      | zero => omega
      | succ bound =>
      have hrun := (he depth bound (by omega) (by omega)).run_append hrest
      rw [List.cons_append] at hs
      rw [labelFactor, char?_of_skip hs]
      dsimp only
      rw [hrun, ok_bind]
      rfl
    exact ⟨List.forall_mem_singleton.mpr hself, hself⟩
  | conjunction es =>
    have hes := reads_allFactors es hw.2 hf.1
    have hparts : ∀ y ∈ es, y.ReadsFactor := fun y hy => (hes y hy).2
    exact ⟨hparts, readsFactor_of_joined hw hf rfl (List.forall_mem_singleton.mpr hparts)⟩
  | disjunction es =>
    have hes := reads_allFactors es hw.2 hf.1
    have hself : ReadsFactor (.disjunction es) :=
      readsFactor_of_joined hw hf rfl fun x hx => (hes x hx).1
    exact ⟨List.forall_mem_singleton.mpr hself, hself⟩

theorem reads_allFactors (es : List LabelExpr) (hw : AllWellFormed es) (hf : AllFlat es) :
    ∀ e ∈ es, (∀ y ∈ e.conjuncts, y.ReadsFactor) ∧ e.ReadsFactor := by
  cases es with
  | nil => exact fun e he => (List.not_mem_nil he).elim
  | cons e es =>
    exact List.forall_mem_cons.mpr ⟨reads_factors e hw.1 hf.1, reads_allFactors es hw.2 hf.2⟩

end

/-- A label expression is read back from its text as its flat form. -/
theorem reads_labels {e : LabelExpr} (hw : e.WellFormed) {depth : Nat}
    (hdepth : e.render.toList.length ≤ depth) :
    Reads (labelsWithin (depth + 1)) LabelEnds e.render.toList e.flatten := by
  rw [← render_flatten e hw] at hdepth ⊢
  have hw' := wellFormed_flatten e hw
  have hf := isFlat_flatten e
  refine reads_disjunction hw' hf (fun x hx y hy => ?_) hdepth
  have hx' := wellFormed_of_mem_disjuncts hw' x hx
  exact (reads_factors x hx' (flat_of_mem_disjuncts hf x hx).1).1 y hy

end GraphPatterns.LabelExpr
