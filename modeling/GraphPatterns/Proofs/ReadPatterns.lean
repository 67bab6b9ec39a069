/-
Patterns are read back: path patterns with commas between them, after a match mode and before a
condition. A word in front of the first path is a match mode, `MATCH` or a variable, and a variable that
is spelled like one of the others is not told from it.
-/
import GraphPatterns.Proofs.ReadPaths

namespace GraphPatterns

open GraphPatterns.Parser

/-! ## Patterns that can be read back -/

namespace PathPattern

structure WellFormed (p : PathPattern) : Prop where
  name : ∀ n ∈ p.name, IsName n
  selector : ∀ s ∈ p.selector, s.WellFormed
  expr : p.expr.WellFormed

def flatten (p : PathPattern) : PathPattern := { p with expr := p.expr.flatten }

end PathPattern

namespace GraphPattern

/-- A pattern of the language. The words for a match mode are not read as a path variable. -/
structure WellFormed (g : GraphPattern) : Prop where
  nonempty : g.paths ≠ []
  path : ∀ p ∈ g.paths, p.WellFormed
  condition : ∀ e ∈ g.condition, e.WellFormed
  first : g.mode = none → ∀ p ∈ g.paths.head?, ∀ n ∈ p.name,
    spells n "REPEATABLE" = false ∧ spells n "DIFFERENT" = false

/-- A pattern whose text says what it is: without doubles and without quotes and backslashes in texts,
with `NOT` and the names of variables where the text shows them, and without `MATCH` as the first
variable. -/
structure Printable (g : GraphPattern) : Prop where
  path : ∀ p ∈ g.paths, p.expr.Printable
  condition : ∀ e ∈ g.condition, e.Printable
  first : ∀ p ∈ g.paths.head?, ∀ n ∈ p.name, spells n "MATCH" = false

/-- The pattern with all label expressions in flat form. -/
def flatten (g : GraphPattern) : GraphPattern := { g with paths := g.paths.map PathPattern.flatten }

end GraphPattern

namespace Parser

variable {s rest : List Char}

/-! ## Path patterns -/

theorem toList_render_pathPattern (p : PathPattern) (rest : List Char) : p.render.toList ++ rest =
    (renderOption (· ++ " = ") p.name).toList ++ ((renderOption (·.render ++ " ") p.selector).toList ++
      ((renderOption (·.render ++ " ") p.mode).toList ++ (p.expr.render.toList ++ rest))) := by
  rw [PathPattern.render]
  simp only [String.toList_append, List.append_assoc]

/-- What follows the name of a path does not declare a variable. -/
theorem declaration?_selector (chosen : Option Selector) (m : Option PathMode) {t : List Char}
    (ht : Opens t) : declaration? ((renderOption (·.render ++ " ") chosen).toList ++
      ((renderOption (·.render ++ " ") m).toList ++ t)) = none := by
  cases chosen with
  | none => exact declaration?_mode m ht
  | some r =>
    obtain ⟨w, hw, t', ht', htext⟩ := exists_selector_word r (noSelector_mode m ht).starts
    have hname := isName_of_mem_words hw
    rw [renderOption, htext]
    exact declaration?_word hname (hname.starts.skip_append _) (nameEnds_cons rfl t')
      (ht'.isAt_space List.mem_cons_self)

/-- The text of a path starts with a name, a selector, a mode or an element. -/
theorem pathPattern_start {p : PathPattern} (hw : p.WellFormed) (rest : List Char) :
    (∃ w r, p.render.toList ++ rest = w.toList ++ ' ' :: r ∧ IsName w ∧
      (w ∈ p.name ∨ w ∈ ["ALL", "ANY", "SHORTEST", "WALK", "TRAIL", "SIMPLE", "ACYCLIC"])) ∨
      Opens (p.render.toList ++ rest) := by
  rw [toList_render_pathPattern]
  have hopens := (PathExpr.opens hw.expr).append rest
  cases hname : p.name with
  | some n =>
    refine .inl ⟨n, '=' :: ' ' :: ((renderOption (·.render ++ " ") p.selector).toList ++
      ((renderOption (·.render ++ " ") p.mode).toList ++ (p.expr.render.toList ++ rest))), ?_,
      hw.name n hname, .inl rfl⟩
    rw [renderOption, String.toList_append, List.append_assoc]
    rfl
  | none =>
    cases p.selector with
    | some r =>
      obtain ⟨w, hmem, t', -, htext⟩ := exists_selector_word r (noSelector_mode p.mode hopens).starts
      refine .inl ⟨w, t', htext, isName_of_mem_words hmem, .inr ?_⟩
      exact List.mem_append_left ["WALK", "TRAIL", "SIMPLE", "ACYCLIC"] hmem
    | none =>
      cases p.mode with
      | some m =>
        refine .inl ⟨m.render, p.expr.render.toList ++ rest, ?_, isName_mode m, .inr ?_⟩
        · change (m.render ++ " ").toList ++ _ = _
          rw [String.toList_append, List.append_assoc]
          rfl
        · cases m <;> decide
      | none => exact .inr hopens

theorem starts_pathPattern {p : PathPattern} (hw : p.WellFormed) (rest : List Char) :
    Starts (p.render.toList ++ rest) := by
  rcases pathPattern_start hw rest with ⟨w, r, htext, hname, -⟩ | hopens
  · rw [htext]
    exact hname.starts.append _
  · exact hopens.starts

/-- A word that stands before the paths is not read on the text of a path, unless it is its name. -/
theorem keyword?_pathPattern {p : PathPattern} (hw : p.WellFormed) {k : String}
    (hk : k ∈ ["MATCH", "REPEATABLE", "DIFFERENT"]) (hname : ∀ n ∈ p.name, spells n k = false)
    (rest : List Char) : keyword? k (p.render.toList ++ rest) = none := by
  rcases pathPattern_start hw rest with ⟨w, r, htext, hword, hmem⟩ | hopens
  · have hspells : spells w k = false := by
      rcases hmem with hmem | hmem
      · exact hname w hmem
      · clear hname htext hword
        revert w k
        decide
    rw [htext, keyword?_of_skip (hword.starts.skip_append _) hword.isNamePart (nameEnds_cons rfl r),
      ← spells, hspells]
    rfl
  · refine keyword?_opens hopens hopens.starts.skip_eq ?_
    clear hname
    revert k
    decide

/-- **Path patterns are read back.** -/
theorem reads_path {p : PathPattern} (hw : p.WellFormed) (hp : p.expr.Printable) :
    Reads path AfterProperties p.render.toList p.flatten := by
  have hstarts := starts_pathPattern hw []
  rw [List.append_nil] at hstarts
  refine ⟨hstarts, fun {s rest} hs hrest => ?_⟩
  have hopens := (PathExpr.opens hw.expr).append rest
  have hdeclaration := declaration?_selector p.selector p.mode hopens
  have hskip := (starts_pathPattern hw rest).skip_eq
  rw [toList_render_pathPattern] at hskip
  rw [toList_render_pathPattern] at hs
  obtain ⟨s₁, hdeclared, hs₁⟩ := declaration_of_skip hw.name hdeclaration (hs.trans hskip.symm)
  have hselector := starts_selector p.selector (noSelector_mode p.mode hopens).starts
  obtain ⟨s₂, hread, hs₂⟩ :=
    selectorAndMode_of_skip hw.selector hopens (hs₁.trans hselector.skip_eq)
  have hlength : p.expr.render.toList.length ≤ s₂.length + 1 := by
    have := length_skip_le s₂
    rw [hs₂, List.length_append] at this
    omega
  rw [path, hdeclared]
  dsimp only
  rw [hread, ok_bind]
  dsimp only
  rw [(p.expr.readsBack hw.expr hp hlength).run hs₂ hrest]
  rfl

/-! ## Graph patterns -/

theorem matchMode_append {m : Option MatchMode} {t : List Char} (ht : Starts t)
    (hnone : m = none → keyword? "REPEATABLE" t = none ∧ keyword? "DIFFERENT" t = none) :
    ∃ s', matchMode ((renderOption (·.render ++ " ") m).toList ++ t) = .ok (m, s') ∧ skip s' = t := by
  cases m with
  | none =>
    refine ⟨t, ?_, ht.skip_eq⟩
    change matchMode t = _
    rw [matchMode, (hnone rfl).1, (hnone rfl).2]
  | some m =>
    refine ⟨' ' :: t, ?_, ht.skip_eq⟩
    cases m <;> rfl

theorem keyword?_match {m : Option MatchMode} {t : List Char}
    (hnone : m = none → keyword? "MATCH" t = none) :
    keyword? "MATCH" ((renderOption (·.render ++ " ") m).toList ++ t) = none := by
  cases m with
  | none => exact hnone rfl
  | some m => cases m <;> rfl

theorem reads_paths {ps : List PathPattern} (hne : ps ≠ []) (hw : ∀ p ∈ ps, p.WellFormed)
    (hp : ∀ p ∈ ps, p.expr.Printable) :
    Reads (separated (char? ',') path) (fun rest => AfterProperties rest ∧ char? ',' rest = none)
      (", ".intercalate (ps.map PathPattern.render)).toList (ps.map PathPattern.flatten) := by
  rw [String.toList_intercalate, List.map_map]
  exact reads_separated (char? ',') [',', ' '] (fun r => ⟨' ' :: r, rfl, rfl⟩)
    (fun r => .inl (.of_cons List.mem_cons_self (' ' :: r))) hne fun p hmem =>
    reads_path (hw p hmem) (hp p hmem)

end Parser

namespace GraphPattern

theorem toList_render (g : GraphPattern) : g.render.toList =
    (renderOption (·.render ++ " ") g.mode).toList ++
      ((", ".intercalate (g.paths.map PathPattern.render)).toList ++ (renderCondition g.condition).toList) := by
  rw [render, String.toList_append, String.toList_append, List.append_assoc]

/-- **Patterns are read back**: what is read is the pattern with its label expressions in flat form. -/
theorem parse_render_flatten {g : GraphPattern} (hw : g.WellFormed) (hp : g.Printable) :
    parse g.render = .ok g.flatten := by
  obtain ⟨p, ps, hpaths⟩ := List.exists_cons_of_ne_nil hw.nonempty
  set after := (", ".intercalate (g.paths.map PathPattern.render)).toList ++
    (renderCondition g.condition).toList with hafter
  have hreads := reads_paths hw.nonempty hw.path hp.path
  have hfirst (k) (hk : k ∈ ["MATCH", "REPEATABLE", "DIFFERENT"])
      (hname : ∀ n ∈ p.name, spells n k = false) : keyword? k after = none := by
    have htext : ∃ r, after = p.render.toList ++ r := by
      rw [hafter, hpaths, String.toList_intercalate, List.map_cons, List.map_cons, intercalate_cons,
        List.append_assoc]
      exact ⟨_, rfl⟩
    obtain ⟨r, hr⟩ := htext
    rw [hr]
    exact keyword?_pathPattern (hw.path p (hpaths ▸ List.mem_cons_self)) hk hname r
  have hhead : p ∈ g.paths.head? := by rw [hpaths]; rfl
  have hmatch : keyword? "MATCH" g.render.toList = none := by
    rw [toList_render]
    exact keyword?_match fun _ => hfirst "MATCH" (by decide) (hp.first p hhead)
  obtain ⟨s, hmode, hs⟩ := matchMode_append (hreads.starts.append _) fun hnone =>
    ⟨hfirst "REPEATABLE" (by decide) fun n hn => (hw.first hnone p hhead n hn).1,
      hfirst "DIFFERENT" (by decide) fun n hn => (hw.first hnone p hhead n hn).2⟩
  have hclose : Closes [] := by rintro c ⟨⟩
  have hnoComma : char? ',' (renderCondition g.condition).toList = none := by
    cases g.condition with
    | none => rfl
    | some e =>
      rw [renderCondition, renderOption, String.toList_append]
      rfl
  have hcondition := condition_append hw.condition hp.condition hclose
  have hproperties := afterProperties_condition hw.condition hp.condition hclose
  rw [List.append_nil] at hcondition hproperties
  have hgraph : graph g.render.toList = .ok (g.flatten, []) := by
    rw [toList_render, graph, hmode, ok_bind]
    dsimp only
    rw [hreads.run hs ⟨hproperties, hnoComma⟩, ok_bind]
    dsimp only
    rw [hcondition]
    rfl
  have htext : text g.render.toList = .ok g.flatten := by
    rw [text, hmatch, Option.getD_none, hgraph]
    rfl
  rw [parse, htext]

end GraphPattern

end GraphPatterns
