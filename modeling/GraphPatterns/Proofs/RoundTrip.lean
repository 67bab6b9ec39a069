/-
Printing a pattern that was read, and reading it again (`GraphPattern.parse_render`): the result is the
pattern with its label expressions in flat form, and it has the same text. The two halves meet in the
patterns of the language: every pattern that is read is one of them, and those that are printable are
read back.
-/
import GraphPatterns.Proofs.Grammar

namespace GraphPatterns

/-! ## The text of flat patterns -/

theorem Filler.render_flatten {f : Filler} (hw : f.WellFormed) : f.flatten.render = f.render := by
  have hlabel : renderOption (fun e : LabelExpr => ":" ++ e.render) (f.label.map LabelExpr.flatten) =
      renderOption (fun e => ":" ++ e.render) f.label := by
    cases hlabel : f.label with
    | none => rfl
    | some e =>
      rw [Option.map_some, renderOption, renderOption, LabelExpr.render_flatten e (hw.label e hlabel)]
  rw [render, render]
  exact congrArg (fun label => f.name.getD "" ++ label ++ _ ++ _) hlabel

theorem EdgePattern.render_flatten {e : EdgePattern} (hw : e.WellFormed) :
    e.flatten.render = e.render := by
  rw [render, render]
  exact congrArg (fun text => if e.abbreviated then e.direction.render else
    e.direction.brackets.1 ++ text ++ e.direction.brackets.2) (Filler.render_flatten hw.filler)

mutual

theorem PathExpr.render_flatten (e : PathExpr) (hw : e.WellFormed) : e.flatten.render = e.render := by
  cases e with
  | term fs =>
    rw [PathExpr.WellFormed] at hw
    rw [PathExpr.flatten, PathExpr.render, PathExpr.render, renderTerm_flatten fs hw.2]
  | union ts =>
    rw [PathExpr.WellFormed] at hw
    rw [PathExpr.flatten, PathExpr.render, PathExpr.render, renderTerms_flatten ts hw.2]
  | multiset ts =>
    rw [PathExpr.WellFormed] at hw
    rw [PathExpr.flatten, PathExpr.render, PathExpr.render, renderTerms_flatten ts hw.2]

theorem renderTerms_flatten (ts : List (List Factor)) (hw : TermsWellFormed ts) :
    renderTerms (flattenTerms ts) = renderTerms ts := by
  cases ts with
  | nil => rfl
  | cons t ts =>
    rw [TermsWellFormed] at hw
    rw [flattenTerms, renderTerms, renderTerms, renderTerm_flatten t hw.1.2, renderTerms_flatten ts hw.2]

theorem renderTerm_flatten (fs : List Factor) (hw : TermWellFormed fs) :
    renderTerm (flattenTerm fs) = renderTerm fs := by
  cases fs with
  | nil => rfl
  | cons f fs =>
    rw [TermWellFormed] at hw
    rw [flattenTerm, renderTerm, renderTerm, f.render_flatten hw.1, renderTerm_flatten fs hw.2]

theorem Factor.render_flatten (f : Factor) (hw : f.WellFormed) : f.flatten.render = f.render := by
  obtain ⟨e, q⟩ := f
  rw [Factor.WellFormed] at hw
  rw [Factor.flatten, Factor.render, Factor.render, e.render_flatten hw.1]

theorem Element.render_flatten (e : Element) (hw : e.WellFormed) : e.flatten.render = e.render := by
  cases e with
  | node n =>
    rw [Element.WellFormed] at hw
    rw [Element.flatten, Element.render, Element.render, renderNode, renderNode, Filler.render_flatten hw]
  | edge e =>
    rw [Element.WellFormed] at hw
    rw [Element.flatten, Element.render, Element.render, EdgePattern.render_flatten hw]
  | group name m body c =>
    rw [Element.WellFormed] at hw
    rw [Element.flatten, Element.render, Element.render, body.render_flatten hw.2.1.2]

end

/-- The flat form of a pattern has the text of the pattern. -/
theorem GraphPattern.render_flatten {g : GraphPattern} (hw : g.WellFormed) :
    g.flatten.render = g.render := by
  have hpaths : g.flatten.paths.map PathPattern.render = g.paths.map PathPattern.render := by
    rw [flatten, List.map_map]
    refine List.map_congr_left fun p hp => ?_
    rw [Function.comp_apply, PathPattern.render, PathPattern.render, PathPattern.flatten,
      p.expr.render_flatten (hw.path p hp).expr]
  rw [render, render, hpaths]
  rfl

/-! ## Printing and reading again -/

namespace GraphPattern

/-- **A pattern that was read is printed faithfully**: its text is read as the same pattern, with nested
conjunctions and disjunctions of labels joined, and that pattern is printed with the same text. -/
theorem parse_render {input : String} {g : GraphPattern} (h : parse input = .ok g) (hp : g.Printable) :
    parse g.render = .ok g.flatten ∧ g.flatten.render = g.render :=
  ⟨parse_render_flatten (wellFormed_of_parse h) hp, render_flatten (wellFormed_of_parse h)⟩

/-- The pattern `p = SHORTEST 2 (a:A&(B&C))->{1,2}() WHERE NOT a.x`. -/
def nestedLabels : GraphPattern where
  paths := [{
    name := some "p"
    selector := some (.shortestK 2)
    expr := .term [
      .mk (.node { name := some "a",
                   label := some (.conjunction [.name "A", .conjunction [.name "B", .name "C"]]) }) none,
      .mk (.edge { direction := .right, abbreviated := true }) (some (.between 1 2)),
      .mk (.node {}) none] }]
  condition := some (.unary .not (.property "a" "x"))

theorem printable_nestedLabels : nestedLabels.Printable where
  path := by
    have hfiller {f : Filler} (hproperties : f.properties = []) (hcondition : f.condition = none) :
        f.Printable :=
      ⟨fun p hp => (List.not_mem_nil (hproperties ▸ hp)).elim,
        fun e he => absurd (hcondition ▸ he) (Option.not_mem_none e)⟩
    simp only [nestedLabels, List.forall_mem_singleton, PathExpr.Printable, TermPrintable,
      Factor.Printable, Element.Printable]
    exact ⟨hfiller rfl rfl, hfiller rfl rfl, hfiller rfl rfl, trivial⟩
  condition := by
    rintro e ⟨⟩
    simp only [Expr.Printable]
    exact ⟨by decide, fun h => absurd rfl h⟩
  first := by
    rintro p ⟨⟩ n ⟨⟩
    decide

theorem parse_render_nestedLabels :
    parse "match p = shortest 2 (a:A&(B&C)) -> \x7b1,2\x7d () where not a.x" = .ok nestedLabels ∧
      nestedLabels.Printable ∧ parse nestedLabels.render = .ok nestedLabels.flatten ∧
        nestedLabels.flatten.render = nestedLabels.render :=
  have hparse :
      parse "match p = shortest 2 (a:A&(B&C)) -> \x7b1,2\x7d () where not a.x" = .ok nestedLabels := rfl
  ⟨hparse, printable_nestedLabels, parse_render hparse printable_nestedLabels⟩

end GraphPattern

end GraphPatterns
