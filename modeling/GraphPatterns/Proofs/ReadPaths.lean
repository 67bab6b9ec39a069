/-
Paths are read back. An opening parenthesis is tried as a group first: on the text of a node this fails
before anything inside is read, since no second parenthesis follows. Factors stand side by side without
spaces, and none starts with what could go on with the one before.
-/
import GraphPatterns.Proofs.ReadPrefixes

namespace GraphPatterns

open GraphPatterns.Parser

/-! ## Paths that can be read back -/

/-- Whether the text of the paths starts with a parenthesis. -/
def PathExpr.startsWithParenthesis (e : PathExpr) : Bool :=
  match e.terms with
  | (.mk (.edge _) _ :: _) :: _ => false
  | _ => true

mutual

/-- Paths of the language: no term is empty, and there are at least two alternatives. -/
def PathExpr.WellFormed : PathExpr → Prop
  | .term fs => fs ≠ [] ∧ TermWellFormed fs
  | .union ts => 2 ≤ ts.length ∧ TermsWellFormed ts
  | .multiset ts => 2 ≤ ts.length ∧ TermsWellFormed ts

def TermsWellFormed : List (List Factor) → Prop
  | [] => True
  | t :: rest => (t ≠ [] ∧ TermWellFormed t) ∧ TermsWellFormed rest

def TermWellFormed : List Factor → Prop
  | [] => True
  | f :: rest => f.WellFormed ∧ TermWellFormed rest

/-- Only edges and groups are quantified. -/
def Factor.WellFormed : Factor → Prop
  | .mk e q => e.WellFormed ∧ (∀ q' ∈ q, q'.WellFormed) ∧ ∀ n, e = .node n → q = none

/-- A group starts with a second parenthesis, possibly after a name and a mode. -/
def Element.WellFormed : Element → Prop
  | .node n => Filler.WellFormed n
  | .edge e => e.WellFormed
  | .group name _ body condition =>
    (∀ n ∈ name, IsName n) ∧ (body.startsWithParenthesis = true ∧ body.WellFormed) ∧
      ∀ e ∈ condition, e.WellFormed

end

mutual

/-- Paths whose text says what they are. -/
def PathExpr.Printable : PathExpr → Prop
  | .term fs => TermPrintable fs
  | .union ts => TermsPrintable ts
  | .multiset ts => TermsPrintable ts

def TermsPrintable : List (List Factor) → Prop
  | [] => True
  | t :: rest => TermPrintable t ∧ TermsPrintable rest

def TermPrintable : List Factor → Prop
  | [] => True
  | f :: rest => f.Printable ∧ TermPrintable rest

def Factor.Printable : Factor → Prop
  | .mk e _ => e.Printable

def Element.Printable : Element → Prop
  | .node n => Filler.Printable n
  | .edge e => e.filler.Printable
  | .group _ _ body condition => body.Printable ∧ ∀ e ∈ condition, e.Printable

end

mutual

/-- The paths with all label expressions in flat form. -/
def PathExpr.flatten : PathExpr → PathExpr
  | .term fs => .term (flattenTerm fs)
  | .union ts => .union (flattenTerms ts)
  | .multiset ts => .multiset (flattenTerms ts)

def flattenTerms : List (List Factor) → List (List Factor)
  | [] => []
  | t :: rest => flattenTerm t :: flattenTerms rest

def flattenTerm : List Factor → List Factor
  | [] => []
  | f :: rest => f.flatten :: flattenTerm rest

def Factor.flatten : Factor → Factor
  | .mk e q => .mk e.flatten q

def Element.flatten : Element → Element
  | .node n => .node (Filler.flatten n)
  | .edge e => .edge e.flatten
  | .group name mode body condition => .group name mode body.flatten condition

end

theorem renderTerms_eq (ts : List (List Factor)) : renderTerms ts = ts.map renderTerm := by
  induction ts with
  | nil => rfl
  | cons t ts ih => rw [renderTerms, ih, List.map_cons]

theorem flattenTerms_eq (ts : List (List Factor)) : flattenTerms ts = ts.map flattenTerm := by
  induction ts with
  | nil => rfl
  | cons t ts ih => rw [flattenTerms, ih, List.map_cons]

theorem termsWellFormed_iff {ts : List (List Factor)} :
    TermsWellFormed ts ↔ ∀ t ∈ ts, t ≠ [] ∧ TermWellFormed t := by
  induction ts with
  | nil => exact ⟨fun _ _ h => (List.not_mem_nil h).elim, fun _ => by rw [TermsWellFormed]; trivial⟩
  | cons t ts ih => rw [TermsWellFormed, ih, List.forall_mem_cons]

theorem termWellFormed_iff {t : Term} : TermWellFormed t ↔ ∀ f ∈ t, f.WellFormed := by
  induction t with
  | nil => exact ⟨fun _ _ h => (List.not_mem_nil h).elim, fun _ => by rw [TermWellFormed]; trivial⟩
  | cons f t ih => rw [TermWellFormed, ih, List.forall_mem_cons]

namespace Parser

variable {s rest : List Char}

/-! ## Where factors and terms end -/

/-- A text at which a factor ends. -/
structure FactorEnds (rest : List Char) : Prop where
  arrow : ArrowEnds rest
  quantifier : NoQuantifier rest

/-- A text at which a term ends. -/
structure TermEnds (rest : List Char) : Prop where
  factor : FactorEnds rest
  noParenthesis : isAt '(' rest = false
  noEdge : edge? rest = none

theorem Opens.factorEnds {t : List Char} (h : Opens t) : FactorEnds t := by
  obtain ⟨c, r, rfl, hc⟩ := h
  simp only [List.mem_cons, List.not_mem_nil, or_false] at hc
  rcases hc with rfl | rfl | rfl | rfl <;>
    exact ⟨by rintro c ⟨⟩; decide, rfl, rfl, rfl, rfl⟩

theorem AfterProperties.termEnds (h : AfterProperties rest) : TermEnds rest := by
  rcases h with h | ⟨r, rfl, -⟩
  · rcases h.cases with rfl | ⟨r, rfl | rfl | rfl | rfl⟩ <;>
      exact ⟨⟨by rintro c ⟨⟩; try decide, rfl, rfl, rfl, rfl⟩, rfl, rfl⟩
  · exact ⟨⟨by rintro c ⟨⟩; decide, rfl, rfl, rfl, rfl⟩, rfl, rfl⟩

theorem termEnds_bar (r : List Char) : TermEnds (' ' :: '|' :: r) :=
  ⟨⟨by rintro c ⟨⟩; decide, rfl, rfl, rfl, rfl⟩, rfl, rfl⟩

/-! ## Factors -/

theorem AfterName.noGroup (h : AfterName rest) :
    isAt '=' rest = false ∧ isAt '(' rest = false ∧ skipPathWord rest = rest ∧
      declaration? rest = none ∧ mode rest = (none, rest) := by
  rcases h with ((h | ⟨r, rfl, heq⟩) | ⟨r, rfl⟩) | ⟨r, rfl⟩
  · rcases h.cases with rfl | ⟨r, rfl | rfl | rfl | rfl⟩ <;> exact ⟨rfl, rfl, rfl, rfl, rfl⟩
  · have hname : IsName "WHERE" := ⟨'W', _, rfl, rfl, List.all_eq_true.mp rfl⟩
    have hskip : skip (' ' :: 'W' :: 'H' :: 'E' :: 'R' :: 'E' :: ' ' :: r) = "WHERE".toList ++ ' ' :: r := rfl
    exact ⟨rfl, rfl, rfl, declaration?_word hname hskip (nameEnds_cons rfl r) heq, rfl⟩
  all_goals exact ⟨rfl, rfl, rfl, rfl, rfl⟩

theorem of_keywordChoice? {α : Type} {l : List (String × α)} {a : α} {s' : List Char}
    (h : keywordChoice? l s = some (a, s')) : ∃ k, keyword? k s = some s' := by
  induction l with
  | nil => cases h
  | cons p l ih =>
    rw [keywordChoice?] at h
    split at h
    · next heq =>
      obtain ⟨-, rfl⟩ := Prod.mk.inj (Option.some.inj h)
      exact ⟨_, heq⟩
    · exact ih h

/-- The name of a node may be the word for a mode; no group follows it. -/
theorem isAt_mode {name : Option String} (hname : ∀ n ∈ name, IsName n) (hrest : AfterName rest) :
    isAt '(' (mode ((name.getD "").toList ++ rest)).2 = false := by
  obtain ⟨-, hnone, hpath, -, hmode⟩ := hrest.noGroup
  cases name with
  | none =>
    change isAt '(' (mode rest).2 = false
    rw [hmode, hnone]
  | some n =>
    have hn := hname n rfl
    have hskip := hn.starts.skip_append rest
    obtain ⟨c, cs, hcs, hc, -⟩ := id hn
    rw [Option.getD_some, mode]
    split
    · next m s' hchoice =>
      obtain ⟨k, hk⟩ := of_keywordChoice? hchoice
      rw [keyword?_of_skip hskip hn.isNamePart hrest.nameEnds] at hk
      split at hk
      · obtain rfl := Option.some.inj hk
        rw [hpath, hnone]
      · cases hk
    · rw [isAt_of_skip (hskip.trans (by rw [hcs, List.cons_append]))]
      exact beq_eq_false_iff_ne.mpr (ne_of_test hc rfl)

theorem group_node (inner : Parse PathExpr) {n : NodePattern} (hw : n.WellFormed) (hp : n.Printable)
    (hs : skip s = (renderNode n).toList ++ rest) : ∃ failure, group inner s = .error failure := by
  set tail := (renderOption (fun e => ":" ++ e.render) n.label).toList ++
    (propertiesText n.properties ++ ((renderCondition n.condition).toList ++ ')' :: rest)) with htail
  have hclose : Closes (')' :: rest) := .of_cons (by simp) rest
  have hafter : AfterName tail := afterName_label n.label (afterLabel_properties n.properties
    (afterProperties_condition hw.condition hp.condition hclose))
  have htext : skip s = '(' :: ((n.name.getD "").toList ++ tail) := by
    rw [hs, renderNode, String.toList_append, String.toList_append, toList_render_filler, htail]
    simp only [List.append_assoc]
    rfl
  have hname : ∀ name ∈ n.name, IsName name := fun name h => (hw.name name h).1
  have hdeclaration :
      declaration ((n.name.getD "").toList ++ tail) = (none, (n.name.getD "").toList ++ tail) := by
    have hnone : declaration? ((n.name.getD "").toList ++ tail) = none := by
      cases hn : n.name with
      | none => exact hafter.noGroup.2.2.2.1
      | some name =>
        have hname := hname name hn
        exact declaration?_word hname (hname.starts.skip_append tail) hafter.nameEnds hafter.noGroup.1
    rw [declaration, hnone]
  rw [group, expectChar_of_skip htext, ok_bind, hdeclaration]
  dsimp only
  rw [isAt_mode hname hafter]
  exact ⟨_, rfl⟩

theorem factor?_node {inner : Parse PathExpr} {n : NodePattern} (hw : n.WellFormed) (hp : n.Printable)
    (hs : skip s = (renderNode n).toList ++ rest) :
    factor? inner s = some (.ok (.mk (.node n.flatten) none, rest)) := by
  obtain ⟨failure, hgroup⟩ := group_node inner hw hp hs
  have hparenthesis : isAt '(' s = true := by
    rw [renderNode, String.toList_append, String.toList_append] at hs
    exact isAt_of_skip hs
  rw [factor?, hparenthesis, if_pos rfl, hgroup]
  dsimp only
  rw [node_of_skip hw hp hs]
  rfl

theorem exists_render_edge (e : EdgePattern) :
    ∃ c r, e.render.toList = c :: r ∧ c ∈ ['<', '-', '~'] := by
  rw [EdgePattern.render]
  split
  · cases e.direction <;> exact ⟨_, _, rfl, by decide⟩
  · rw [String.toList_append, String.toList_append]
    cases e.direction <;> exact ⟨_, _, rfl, by decide⟩

theorem arrowEnds_quantifier (q : Option Quantifier) (hrest : ArrowEnds rest) :
    ArrowEnds ((renderOption Quantifier.render q).toList ++ rest) := by
  cases q with
  | none => exact hrest
  | some q =>
    obtain ⟨c, r, hc, hends⟩ : ∃ c r, q.render.toList = c :: r ∧ c ≠ '>' ∧ c ≠ '[' := by
      cases q with
      | zeroOrMore => exact ⟨_, _, rfl, by decide⟩
      | oneOrMore => exact ⟨_, _, rfl, by decide⟩
      | zeroOrOne => exact ⟨_, _, rfl, by decide⟩
      | _ => exact ⟨'\x7b', _, by simp [Quantifier.render, String.toList_append]; rfl, by decide⟩
    rw [renderOption, hc]
    rintro d ⟨⟩
    exact hends

theorem factor?_edge {inner : Parse PathExpr} {e : EdgePattern} (hw : e.WellFormed)
    (hp : e.filler.Printable) {q : Option Quantifier} (hq : ∀ q' ∈ q, q'.WellFormed)
    (hs : skip s = e.render.toList ++ ((renderOption Quantifier.render q).toList ++ rest))
    (hrest : FactorEnds rest) : factor? inner s = some (.ok (.mk (.edge e.flatten) q, rest)) := by
  have hparenthesis : isAt '(' s = false := by
    obtain ⟨c, r, hc, hmem⟩ := exists_render_edge e
    rw [isAt_of_skip (hs.trans (by rw [hc, List.cons_append]))]
    simp only [List.mem_cons, List.not_mem_nil, or_false] at hmem
    rcases hmem with rfl | rfl | rfl <;> rfl
  rw [factor?, hparenthesis, if_neg Bool.false_ne_true,
    edge?_of_skip hw hp hs (arrowEnds_quantifier q hrest.arrow), Option.map_some, ok_bind]
  dsimp only
  rw [repeated, quantifier_append hq fun _ => hrest.quantifier]
  rfl

theorem factor?_group {inner : Parse PathExpr} {name : Option String} {m : Option PathMode}
    {body body' : PathExpr} {c : Option Expr} {q : Option Quantifier} (hname : ∀ n ∈ name, IsName n)
    (hbody : Reads inner AfterProperties body.render.toList body') (hopens : Opens body.render.toList)
    (hparenthesis : isAt '(' body.render.toList = true)
    (hw : ∀ e ∈ c, e.WellFormed) (hp : ∀ e ∈ c, e.Printable) (hq : ∀ q' ∈ q, q'.WellFormed)
    (hs : skip s = (Element.group name m body c).render.toList ++
      ((renderOption Quantifier.render q).toList ++ rest))
    (hrest : FactorEnds rest) :
    factor? inner s = some (.ok (.mk (.group name m body' c) q, rest)) := by
  set after := (renderOption Quantifier.render q).toList ++ rest with hafter
  set tail := body.render.toList ++ ((renderCondition c).toList ++ ')' :: after) with htail
  have htext : skip s = '(' :: ((renderOption (· ++ " = ") name).toList ++
      ((renderOption (·.render ++ " ") m).toList ++ tail)) := by
    rw [hs, Element.render, htail]
    simp only [String.toList_append, List.append_assoc]
    rfl
  have hclose : Closes (')' :: after) := .of_cons (by simp) after
  have hopenTail : Opens tail := hopens.append _
  obtain ⟨s₁, hdeclared, hs₁⟩ := declaration_of_skip hname (declaration?_mode m hopenTail) rfl
  have hs₁ : skip s₁ = (renderOption (·.render ++ " ") m).toList ++ tail := by
    rw [hs₁]
    exact (noSelector_mode m hopenTail).starts.skip_eq
  obtain ⟨s₂, hmode, hs₂⟩ := mode_of_skip hopenTail hs₁
  have hat : isAt '(' s₂ = true := by
    obtain ⟨d, r, hd, -⟩ := id hopens
    rw [isAt_of_skip (hs₂.trans (by rw [htail, hd, List.cons_append]))]
    rw [isAt_of_skip (hopens.starts.skip_eq.trans hd)] at hparenthesis
    exact hparenthesis
  have hgroup : group inner s = .ok (.group name m body' c, after) := by
    rw [group, expectChar_of_skip htext, ok_bind, hdeclared]
    dsimp only
    rw [hmode]
    dsimp only
    rw [hat]
    simp only [Bool.not_true, Bool.false_eq_true, if_false]
    rw [hbody.run hs₂ (afterProperties_condition hw hp hclose), ok_bind]
    dsimp only
    rw [condition_append hw hp hclose, ok_bind]
    dsimp only
    rw [expectChar_of_skip (skip_cons rfl (by decide)), ok_bind]
    rfl
  rw [factor?, isAt_of_skip htext, beq_self_eq_true, if_pos rfl, hgroup]
  dsimp only
  rw [repeated, quantifier_append hq fun _ => hrest.quantifier]
  rfl

end Parser

/-! ## The start of a path -/

theorem toList_intercalate_renderTerms (sep : String) (t : Term) (ts : List Term) :
    (sep.intercalate (renderTerms (t :: ts))).toList =
      (renderTerm t).toList ++ ts.flatMap fun v => sep.toList ++ (renderTerm v).toList := by
  rw [String.toList_intercalate, renderTerms_eq, List.map_cons, List.map_cons, intercalate_cons,
    List.map_map, List.flatMap_map]
  rfl

/-- The text of a path starts with that of its first element. -/
theorem PathExpr.exists_first {e : PathExpr} (hw : e.WellFormed) : ∃ e' q fs ts r,
    e.terms = (.mk e' q :: fs) :: ts ∧ e.render.toList = e'.render.toList ++ r := by
  obtain ⟨t, ts, r, hterms, ht, hrender⟩ : ∃ t ts r,
      e.terms = t :: ts ∧ t ≠ [] ∧ e.render.toList = (renderTerm t).toList ++ r := by
    cases e with
    | term fs =>
      rw [WellFormed] at hw
      rw [render]
      exact ⟨fs, [], [], rfl, hw.1, (List.append_nil _).symm⟩
    | union ts =>
      rw [WellFormed, termsWellFormed_iff] at hw
      obtain ⟨t, u, ts, rfl⟩ := exists_cons_cons hw.1
      rw [render, toList_intercalate_renderTerms]
      exact ⟨t, _, _, rfl, (hw.2 t List.mem_cons_self).1, rfl⟩
    | multiset ts =>
      rw [WellFormed, termsWellFormed_iff] at hw
      obtain ⟨t, u, ts, rfl⟩ := exists_cons_cons hw.1
      rw [render, toList_intercalate_renderTerms]
      exact ⟨t, _, _, rfl, (hw.2 t List.mem_cons_self).1, rfl⟩
  obtain ⟨⟨e', q⟩, fs, rfl⟩ := List.exists_cons_of_ne_nil ht
  rw [renderTerm, Factor.render, String.toList_append, String.toList_append, List.append_assoc,
    List.append_assoc] at hrender
  exact ⟨e', q, fs, ts, _, hterms, hrender⟩

theorem Element.exists_parenthesis {e : Element} (he : ∀ e', e ≠ .edge e') :
    ∃ r, e.render.toList = '(' :: r := by
  cases e with
  | node n =>
    rw [render, renderNode, String.toList_append, String.toList_append]
    exact ⟨_, rfl⟩
  | edge e => exact absurd rfl (he e)
  | group name m body c =>
    rw [render]
    simp only [String.toList_append]
    exact ⟨_, rfl⟩

theorem Element.opens (e : Element) : Opens e.render.toList := by
  by_cases he : ∃ e', e = .edge e'
  · obtain ⟨e', rfl⟩ := he
    obtain ⟨c, r, hc, hmem⟩ := exists_render_edge e'
    rw [render]
    exact ⟨c, r, hc, List.mem_cons_of_mem _ hmem⟩
  · obtain ⟨r, hr⟩ := e.exists_parenthesis fun e' heq => he ⟨e', heq⟩
    exact ⟨'(', r, hr, by decide⟩

theorem Factor.opens (f : Factor) : Opens f.render.toList := by
  obtain ⟨e, q⟩ := f
  rw [render, String.toList_append]
  exact e.opens.append _

theorem PathExpr.opens {e : PathExpr} (hw : e.WellFormed) : Opens e.render.toList := by
  obtain ⟨e', -, -, -, r, -, hr⟩ := exists_first hw
  rw [hr]
  exact e'.opens.append r

theorem PathExpr.exists_parenthesis {e : PathExpr} (hw : e.WellFormed)
    (h : e.startsWithParenthesis = true) : ∃ r, e.render.toList = '(' :: r := by
  obtain ⟨e', q, fs, ts, r, hterms, hrender⟩ := exists_first hw
  obtain ⟨r', hr'⟩ := e'.exists_parenthesis fun e'' heq => by
    rw [startsWithParenthesis, hterms, heq] at h
    cases h
  exact ⟨_, by rw [hrender, hr', List.cons_append]⟩

/-! ## Terms and their alternatives -/

/-- The factor is read back where parentheses are nested to a depth. -/
def Factor.ReadsBack (f : Factor) (depth : Nat) : Prop :=
  ∀ {s rest}, skip s = f.render.toList ++ rest → FactorEnds rest →
    factor? (pathExprWithin depth) s = some (.ok (f.flatten, rest))

namespace Parser

theorem opens_renderTerm {fs : List Factor} (hne : fs ≠ []) : Opens (renderTerm fs).toList := by
  obtain ⟨f, fs, rfl⟩ := List.exists_cons_of_ne_nil hne
  rw [renderTerm, String.toList_append]
  exact f.opens.append _

theorem length_le_renderTerm (fs : List Factor) : fs.length ≤ (renderTerm fs).toList.length := by
  induction fs with
  | nil => exact Nat.zero_le _
  | cons f fs ih =>
    have hfirst := f.opens.starts.length_pos
    rw [renderTerm, String.toList_append, List.length_append, List.length_cons]
    omega

/-- Factors stand side by side: each starts with a character that ends the one before. -/
theorem factorEnds_renderTerm (fs : List Factor) (hrest : TermEnds rest) :
    FactorEnds ((renderTerm fs).toList ++ rest) := by
  cases fs with
  | nil => exact hrest.factor
  | cons f fs => exact ((opens_renderTerm (List.cons_ne_nil f fs)).append rest).factorEnds

theorem factors_append {fs : List Factor} {depth : Nat} (hfs : ∀ f ∈ fs, f.ReadsBack depth)
    (hrest : TermEnds rest) {bound : Nat} (hbound : fs.length ≤ bound) :
    factors (pathExprWithin depth) bound ((renderTerm fs).toList ++ rest) = .ok (flattenTerm fs, rest) := by
  induction fs generalizing bound with
  | nil =>
    change factors _ bound rest = _
    cases bound with
    | zero => rfl
    | succ bound =>
      rw [factors, factor?, hrest.noParenthesis, if_neg Bool.false_ne_true, hrest.noEdge]
      rfl
  | cons f fs ih =>
    cases bound with
    | zero => exact absurd hbound (Nat.not_succ_le_zero _)
    | succ bound =>
      rw [List.forall_mem_cons] at hfs
      have hskip := f.opens.starts.skip_append ((renderTerm fs).toList ++ rest)
      rw [renderTerm, String.toList_append, List.append_assoc, factors,
        hfs.1 hskip (factorEnds_renderTerm fs hrest)]
      dsimp only
      rw [ok_bind, ih hfs.2 (Nat.le_of_succ_le_succ hbound), ok_bind]
      rfl

theorem reads_term {fs : List Factor} (hne : fs ≠ []) {depth : Nat} (hfs : ∀ f ∈ fs, f.ReadsBack depth) :
    Reads (term (pathExprWithin depth)) TermEnds (renderTerm fs).toList (flattenTerm fs) := by
  refine ⟨(opens_renderTerm hne).starts, fun {s rest} hs hrest => ?_⟩
  obtain ⟨f, fs, rfl⟩ := List.exists_cons_of_ne_nil hne
  have hlength : fs.length ≤ s.length := by
    have hterm := length_le_renderTerm (f :: fs)
    have hskip := length_skip_le s
    rw [hs, List.length_append] at hskip
    rw [List.length_cons] at hterm
    omega
  rw [List.forall_mem_cons] at hfs
  rw [renderTerm, String.toList_append, List.append_assoc] at hs
  rw [term, factors, hfs.1 hs (factorEnds_renderTerm fs hrest)]
  dsimp only
  rw [ok_bind, factors_append hfs.2 hrest hlength, ok_bind]
  rfl

/-- The text of alternatives is read as the first of them and those that each stand after a bar. -/
theorem alternatives_of_skip {separator : List Char → Option (List Char)} (sep : String)
    (hsep : ∀ r, ∃ s, separator (sep.toList ++ r) = some s ∧ skip s = skip r)
    (hbetween : ∀ r, TermEnds (sep.toList ++ r)) {t u : Term} {ts : List Term}
    (hne : ∀ v ∈ t :: u :: ts, v ≠ []) {depth : Nat}
    (hts : ∀ v ∈ t :: u :: ts, ∀ f ∈ v, f.ReadsBack depth) (hend : separator rest = none)
    (hrest : TermEnds rest)
    (hs : skip s = (sep.intercalate (renderTerms (t :: u :: ts))).toList ++ rest) :
    ∃ r, term (pathExprWithin depth) s = .ok (flattenTerm t, sep.toList ++ r) ∧
      more separator (term (pathExprWithin depth)) (sep.toList ++ r).length (sep.toList ++ r) =
        .ok (flattenTerms (u :: ts), rest) := by
  have hread (v) (hv : v ∈ t :: u :: ts) := reads_term (hne v hv) (hts v hv)
  have hlength : (u :: ts).length ≤
      ((u :: ts).flatMap fun v => sep.toList ++ (renderTerm v).toList).length :=
    length_le_flatMap fun v hv => (hread v (List.mem_cons_of_mem t hv)).starts
  have hmore := more_append hsep hbetween (fun v hv => hread v (List.mem_cons_of_mem t hv)) hend hrest
    (hlength.trans (List.length_append.symm ▸ Nat.le_add_right _ rest.length))
  rw [List.flatMap_cons, List.append_assoc, List.append_assoc, ← flattenTerms_eq] at hmore
  refine ⟨_, (hread t List.mem_cons_self).run ?_ (hbetween _), hmore⟩
  rw [hs, toList_intercalate_renderTerms, List.flatMap_cons, List.append_assoc, List.append_assoc,
    List.append_assoc]

theorem starts_alternatives (sep : String) {t : Term} (ts : List Term) (ht : Starts (renderTerm t).toList) :
    Starts (sep.intercalate (renderTerms (t :: ts))).toList := by
  rw [toList_intercalate_renderTerms]
  exact ht.append _

theorem length_renderTerm_le (sep : String) {t : Term} {ts : List Term} (ht : t ∈ ts) :
    (renderTerm t).toList.length ≤ (sep.intercalate (renderTerms ts)).toList.length := by
  rw [String.toList_intercalate, renderTerms_eq, List.map_map]
  exact length_le_intercalate _ (List.mem_map_of_mem ht)

/-- **The alternatives of a choice are read back**, given that their factors are. -/
theorem reads_pathExpr {e : PathExpr} (hw : e.WellFormed) {depth : Nat}
    (hterms : ∀ t ∈ e.terms, ∀ f ∈ t, f.ReadsBack depth) :
    Reads (pathExprOver (pathExprWithin depth)) AfterProperties e.render.toList e.flatten := by
  have hnoBar {rest : List Char} (h : AfterProperties rest) :
      text? "|+|" rest = none ∧ char? '|' rest = none ∧ unionBar rest = none ∧ isAt '|' rest = false := by
    rcases h with h | ⟨r, rfl, -⟩
    · rcases h.cases with rfl | ⟨r, rfl | rfl | rfl | rfl⟩ <;> exact ⟨rfl, rfl, rfl, rfl⟩
    · exact ⟨rfl, rfl, rfl, rfl⟩
  cases e with
  | term fs =>
    rw [PathExpr.WellFormed] at hw
    have hread := reads_term hw.1 (hterms fs List.mem_cons_self)
    rw [PathExpr.render, PathExpr.flatten]
    refine ⟨hread.starts, fun {s rest} hs hrest => ?_⟩
    rw [pathExprOver, hread.run hs hrest.termEnds, ok_bind]
    dsimp only
    rw [(hnoBar hrest).1, (hnoBar hrest).2.1]
    rfl
  | union ts =>
    rw [PathExpr.WellFormed, termsWellFormed_iff] at hw
    obtain ⟨t, u, ts, rfl⟩ := exists_cons_cons hw.1
    have hfirst := reads_term (hw.2 t List.mem_cons_self).1 (hterms t List.mem_cons_self)
    rw [PathExpr.render, PathExpr.flatten]
    refine ⟨starts_alternatives " | " _ hfirst.starts, fun {s rest} hs hrest => ?_⟩
    obtain ⟨r, hterm, hmore⟩ := alternatives_of_skip " | " (fun r => ⟨' ' :: r, rfl, rfl⟩)
      (fun r => termEnds_bar (' ' :: r)) (fun v hv => (hw.2 v hv).1) hterms (hnoBar hrest).2.2.1
      hrest.termEnds hs
    have hbar : text? "|+|" (" | ".toList ++ r) = none ∧ char? '|' (" | ".toList ++ r) = some (' ' :: r) :=
      ⟨rfl, rfl⟩
    rw [pathExprOver, hterm, ok_bind]
    dsimp only
    rw [hbar.1, hbar.2]
    dsimp only
    rw [hmore, ok_bind]
    dsimp only
    rw [(hnoBar hrest).1]
    rfl
  | multiset ts =>
    rw [PathExpr.WellFormed, termsWellFormed_iff] at hw
    obtain ⟨t, u, ts, rfl⟩ := exists_cons_cons hw.1
    have hfirst := reads_term (hw.2 t List.mem_cons_self).1 (hterms t List.mem_cons_self)
    rw [PathExpr.render, PathExpr.flatten]
    refine ⟨starts_alternatives " |+| " _ hfirst.starts, fun {s rest} hs hrest => ?_⟩
    obtain ⟨r, hterm, hmore⟩ := alternatives_of_skip " |+| " (fun r => ⟨' ' :: r, rfl, rfl⟩)
      (fun r => termEnds_bar ('+' :: '|' :: ' ' :: r)) (fun v hv => (hw.2 v hv).1) hterms (hnoBar hrest).1
      hrest.termEnds hs
    have hbar : text? "|+|" (" |+| ".toList ++ r) = some (' ' :: r) := rfl
    rw [pathExprOver, hterm, ok_bind]
    dsimp only
    rw [hbar]
    dsimp only
    rw [hmore, ok_bind]
    dsimp only
    rw [(hnoBar hrest).2.2.2]
    rfl

end Parser

mutual

/-- **Paths are read back** where parentheses may be nested as deep as the text is long. -/
theorem PathExpr.readsBack (e : PathExpr) (hw : e.WellFormed) (hp : e.Printable) {depth : Nat}
    (hdepth : e.render.toList.length ≤ depth + 1) :
    Reads (pathExprWithin (depth + 1)) AfterProperties e.render.toList e.flatten := by
  refine reads_pathExpr hw ?_
  cases e with
  | term fs =>
    rw [PathExpr.WellFormed] at hw
    rw [PathExpr.Printable] at hp
    rw [PathExpr.render] at hdepth
    exact List.forall_mem_singleton.mpr (termReadsBack fs hw.2 hp hdepth)
  | union ts =>
    rw [PathExpr.WellFormed] at hw
    rw [PathExpr.Printable] at hp
    rw [PathExpr.render] at hdepth
    exact termsReadBack ts hw.2 hp fun t ht => (length_renderTerm_le " | " ht).trans hdepth
  | multiset ts =>
    rw [PathExpr.WellFormed] at hw
    rw [PathExpr.Printable] at hp
    rw [PathExpr.render] at hdepth
    exact termsReadBack ts hw.2 hp fun t ht => (length_renderTerm_le " |+| " ht).trans hdepth

theorem termsReadBack (ts : List (List Factor)) (hw : TermsWellFormed ts) (hp : TermsPrintable ts)
    {depth : Nat} (hdepth : ∀ t ∈ ts, (renderTerm t).toList.length ≤ depth + 1) :
    ∀ t ∈ ts, ∀ f ∈ t, f.ReadsBack depth := by
  cases ts with
  | nil => exact fun t ht => (List.not_mem_nil ht).elim
  | cons t ts =>
    rw [TermsWellFormed] at hw
    rw [TermsPrintable] at hp
    rw [List.forall_mem_cons] at hdepth
    exact List.forall_mem_cons.mpr
      ⟨termReadsBack t hw.1.2 hp.1 hdepth.1, termsReadBack ts hw.2 hp.2 hdepth.2⟩

theorem termReadsBack (fs : List Factor) (hw : TermWellFormed fs) (hp : TermPrintable fs) {depth : Nat}
    (hdepth : (renderTerm fs).toList.length ≤ depth + 1) : ∀ f ∈ fs, f.ReadsBack depth := by
  cases fs with
  | nil => exact fun f hf => (List.not_mem_nil hf).elim
  | cons f fs =>
    rw [TermWellFormed] at hw
    rw [TermPrintable] at hp
    rw [renderTerm, String.toList_append, List.length_append] at hdepth
    exact List.forall_mem_cons.mpr
      ⟨f.readsBack hw.1 hp.1 (by omega), termReadsBack fs hw.2 hp.2 (by omega)⟩

theorem Factor.readsBack (f : Factor) (hw : f.WellFormed) (hp : f.Printable) {depth : Nat}
    (hdepth : f.render.toList.length ≤ depth + 1) : f.ReadsBack depth := by
  obtain ⟨e, q⟩ := f
  rw [Factor.WellFormed] at hw
  rw [Factor.Printable] at hp
  obtain ⟨hwe, hq, hnode⟩ := hw
  rw [Factor.render, String.toList_append] at hdepth
  cases e with
  | node n =>
    obtain rfl : q = none := hnode n rfl
    have htext : (Factor.mk (.node n) none).render.toList = (renderNode n).toList := by
      rw [Factor.render, Element.render, String.toList_append]
      exact List.append_nil _
    rw [Element.WellFormed] at hwe
    rw [Element.Printable] at hp
    intro s rest hs _
    rw [htext] at hs
    rw [factor?_node hwe hp hs, Factor.flatten, Element.flatten]
  | edge e =>
    have htext : (Factor.mk (.edge e) q).render.toList =
        e.render.toList ++ (renderOption Quantifier.render q).toList := by
      rw [Factor.render, Element.render, String.toList_append]
    rw [Element.WellFormed] at hwe
    rw [Element.Printable] at hp
    intro s rest hs hrest
    rw [htext, List.append_assoc] at hs
    rw [factor?_edge hwe hp hq hs hrest, Factor.flatten, Element.flatten]
  | group name m body c =>
    rw [Element.WellFormed] at hwe
    rw [Element.Printable] at hp
    obtain ⟨hname, ⟨hstart, hbody⟩, hcondition⟩ := hwe
    obtain ⟨r, hr⟩ := body.exists_parenthesis hbody hstart
    have hlength : body.render.toList.length + 1 ≤ depth := by
      rw [Element.render] at hdepth
      simp only [String.toList_append, List.length_append] at hdepth
      have hopen : "(".toList.length = 1 := rfl
      have hclose : ")".toList.length = 1 := rfl
      omega
    obtain ⟨depth, rfl⟩ : ∃ d, depth = d + 1 := ⟨depth - 1, by omega⟩
    have hread := body.readsBack hbody hp.1 (Nat.le_of_succ_le hlength)
    have hparenthesis : isAt '(' body.render.toList = true := by rw [hr]; rfl
    intro s rest hs hrest
    rw [Factor.render, String.toList_append, List.append_assoc] at hs
    rw [factor?_group hname hread (PathExpr.opens hbody) hparenthesis hcondition hp.2 hq hs hrest,
      Factor.flatten, Element.flatten]

end

end GraphPatterns
