/-
Matches can be printed. A pattern of the language binds under names, a path is bound only where it has an
edge between any two vertices (`GraphPattern.matches_prints`), and no text that is printed begins a colour
sequence. A table without colour sequences can be drawn (`Printer.Draws`), so what is left is the alignment
of names line by line, which fails if a name is too wide for it (`Printer.print_eq_crash_iff`).
-/
import GraphPatterns.Console.Standard
import GraphPatterns.Proofs.Grammar
import GraphPatterns.Proofs.Kinds
import GraphPatterns.Proofs.LineWidths
import GraphPatterns.Proofs.Occurrences

namespace GraphPatterns

/-! ## Texts without colour sequences -/

namespace Text

/-- A text without the escape character, with which a colour sequence begins. -/
def IsPlain (s : String) : Prop := '\x1b' ∉ s.toList

instance (s : String) : Decidable (IsPlain s) := inferInstanceAs (Decidable (_ ∉ _))

theorem IsPlain.append {s t : String} (hs : IsPlain s) (ht : IsPlain t) : IsPlain (s ++ t) := by
  rw [IsPlain, String.toList_append, List.mem_append, not_or]
  exact ⟨hs, ht⟩

theorem IsPlain.intercalate {sep : String} {ss : List String} (hsep : IsPlain sep)
    (h : ∀ s ∈ ss, IsPlain s) : IsPlain (sep.intercalate ss) := by
  rw [IsPlain, String.toList_intercalate]
  induction ss with
  | nil => exact List.not_mem_nil
  | cons s ss ih =>
    obtain ⟨hs, hss⟩ := List.forall_mem_cons.mp h
    cases ss with
    | nil =>
      rw [List.map_singleton, List.intercalate_singleton]
      exact hs
    | cons s' ss =>
      rw [List.map_cons, List.map_cons, List.intercalate_cons_cons, List.mem_append, List.mem_append,
        not_or, not_or]
      exact ⟨⟨hs, hsep⟩, ih hss⟩

theorem isPlain_toString (n : Nat) : IsPlain (toString n) := fun h => by
  have hdigit := Nat.isDigit_of_mem_toDigits (b := 10) (n := n) (by decide) (by decide)
    (by simpa [toString] using h)
  exact absurd hdigit (by decide)

theorem isPlain_name {name : String} (h : Parser.IsName name) : IsPlain name := fun hmem =>
  absurd (h.isNamePart _ hmem) (by decide)

end Text

open Text

theorem VertexId.isPlain_render (v : VertexId) : IsPlain v.render :=
  .append (by decide) (isPlain_toString v.number)

theorem EdgeId.isPlain_render (e : EdgeId) : IsPlain e.render :=
  .append (by decide) (isPlain_toString e.number)

theorem ElementId.isPlain_render (x : ElementId) : IsPlain x.render := by
  cases x with
  | vertex v => exact v.isPlain_render
  | edge e => exact e.isPlain_render

namespace Path

theorem isPlain_renderVertex (v : VertexId) : IsPlain (renderVertex v) :=
  .append (.append (by decide) v.isPlain_render) (by decide)

theorem isPlain_of_renderSteps? {vs : List VertexId} {es : List EdgeId} {text : String}
    (h : renderSteps? vs es = some text) : IsPlain text := by
  induction vs generalizing es text with
  | nil =>
    cases h
    decide
  | cons v vs ih =>
    cases es with
    | nil => cases h
    | cons e es =>
      obtain ⟨rest, hrest, rfl⟩ := Option.map_eq_some_iff.mp h
      have hedge : IsPlain ("-[" ++ e.render ++ "]-") :=
        .append (.append (by decide) e.isPlain_render) (by decide)
      exact (hedge.append (isPlain_renderVertex v)).append (ih hrest)

theorem isPlain_of_render? {p : Path} {text : String} (h : p.render? = some text) : IsPlain text := by
  unfold render? at h
  split at h
  · cases h
    decide
  · obtain ⟨rest, hrest, rfl⟩ := Option.map_eq_some_iff.mp h
    exact (isPlain_renderVertex _).append (isPlain_of_renderSteps? hrest)

end Path

theorem Bound.isPlain_of_render? {b : Bound} {text : String} (h : b.render? = some text) : IsPlain text := by
  cases b with
  | vertex v =>
    cases h
    exact v.isPlain_render
  | edge e =>
    cases h
    exact e.isPlain_render
  | group items =>
    cases h
    have hitems : IsPlain (", ".intercalate (items.map ElementId.render)) :=
      .intercalate (by decide) (List.forall_mem_map.mpr fun x _ => x.isPlain_render)
    exact .append (.append (by decide) hitems) (by decide)
  | path p => exact p.isPlain_of_render? h

/-! ## Tables -/

/-- What is relied on of the library that draws tables: those of texts without colour sequences it can
draw. -/
structure Printer.Draws (p : Printer) : Prop where
  table : ∀ (header : List String) (rows : List (List String)),
    (∀ row ∈ header :: rows, ∀ s ∈ row, IsPlain s) → (p.table header rows).isSome = true

/-- In the tables of the program a line without colour sequences has a width. -/
theorem Table.render?_eq {header : List String} {rows : List (List String)}
    (h : ∀ row ∈ header :: rows, ∀ s ∈ row, IsPlain s) :
    render? header rows = some (render header rows) := by
  unfold render?
  rw [if_pos]
  simp only [List.all_eq_true]
  intro row hrow s hs line hline
  exact hasWidth_of_not_mem fun hmem => h row hrow s hs (mem_of_mem_lines hline hmem)

theorem Printer.draws_standard : Printer.standard.Draws where
  table _ _ h := Option.isSome_iff_exists.mpr ⟨_, Table.render?_eq h⟩

theorem Printer.isSome_counters? {p : Printer} (hp : p.Draws) (t : Tally) :
    (p.counters? t).isSome = true := by
  have hflag : IsPlain (if t.truncated then "true" else "false") := by
    cases t.truncated <;> decide
  refine hp.table _ _ ?_
  simp only [List.forall_mem_cons, List.not_mem_nil, false_implies, implies_true, and_true,
    isPlain_toString, hflag]
  decide

/-- A match with names that can stand in a table and with paths that have a text. -/
structure Match.Prints (m : Match) : Prop where
  names : ∀ name ∈ m.bindings.keys, IsPlain name
  bound : ∀ b ∈ m.bindings, b.2.render?.isSome = true
  paths : ∀ p ∈ m.paths, p.render?.isSome = true

namespace Report

theorem exists_mapM {α β : Type} {f : α → Option β} {P : β → Prop} {xs : List α}
    (h : ∀ x ∈ xs, ∃ y, f x = some y ∧ P y) : ∃ ys, xs.mapM f = some ys ∧ ∀ y ∈ ys, P y := by
  induction xs with
  | nil => exact ⟨[], rfl, nofun⟩
  | cons x xs ih =>
    obtain ⟨⟨y, hy, hp⟩, hxs⟩ := List.forall_mem_cons.mp h
    obtain ⟨ys, hys, hps⟩ := ih hxs
    exact ⟨y :: ys, by simp [List.mapM_cons, hy, hys], List.forall_mem_cons.mpr ⟨hp, hps⟩⟩

theorem mem_names {ms : List Match} {name : String} :
    name ∈ names ms ↔ ∃ m ∈ ms, name ∈ m.bindings.keys := by
  have hadd (there keys : List String) :
      name ∈ keys.foldl Labels.add there ↔ name ∈ there ∨ name ∈ keys := by
    induction keys generalizing there with
    | nil => simp
    | cons key keys ih => rw [List.foldl_cons, ih, Labels.mem_add, List.mem_cons, or_assoc]
  have hall (there : List String) :
      name ∈ ms.foldl (fun names m => m.bindings.keys.foldl Labels.add names) there ↔
        name ∈ there ∨ ∃ m ∈ ms, name ∈ m.bindings.keys := by
    induction ms generalizing there with
    | nil => simp
    | cons m ms ih => rw [List.foldl_cons, ih, hadd, List.exists_mem_cons_iff, or_assoc]
  simp [names, hall]

theorem exists_cell? {m : Match} (h : m.Prints) (name : String) :
    ∃ text, cell? m name = some text ∧ IsPlain text := by
  unfold cell?
  cases hbound : m.bindings.get? name with
  | none => exact ⟨"", rfl, by decide⟩
  | some b =>
    obtain ⟨text, htext⟩ := Option.isSome_iff_exists.mp (h.bound _ (Assoc.mem_of_get? hbound))
    exact ⟨text, htext, b.isPlain_of_render? htext⟩

theorem exists_row? {m : Match} (h : m.Prints) (names : List String) :
    ∃ row, row? names m = some row ∧ ∀ s ∈ row, IsPlain s := by
  obtain ⟨cells, hcells, hplain⟩ := exists_mapM fun name (_ : name ∈ names) => exists_cell? h name
  have hpath (p : Path) (hp : p ∈ m.paths) : ∃ text, p.render? = some text ∧ IsPlain text := by
    obtain ⟨text, htext⟩ := Option.isSome_iff_exists.mp (h.paths p hp)
    exact ⟨text, htext, p.isPlain_of_render? htext⟩
  obtain ⟨paths, hpaths, hplain'⟩ := exists_mapM hpath
  refine ⟨cells ++ [", ".intercalate paths], by simp [row?, hcells, hpaths], fun s hs => ?_⟩
  rcases List.mem_append.mp hs with hs | hs
  · exact hplain s hs
  · obtain rfl := List.mem_singleton.mp hs
    exact .intercalate (by decide) hplain'

theorem nameWidth_le_iff {columns : List String} {n : Nat} :
    nameWidth columns ≤ n ↔ ∀ name ∈ columns, name.utf8ByteSize ≤ n := by
  have hfold (a : Nat) (sizes : List Nat) : sizes.foldl max a ≤ n ↔ a ≤ n ∧ ∀ k ∈ sizes, k ≤ n := by
    induction sizes generalizing a with
    | nil => simp
    | cons k sizes ih => simp [ih, and_assoc]
  simp [nameWidth, hfold]

end Report

namespace Printer

variable {p : Printer}

open Report

/-- Where JSON is not written, no more than the line fails. -/
theorem jsonLines_ne_crash (found : List Match) : p.jsonLines found ≠ .error .crash := by
  induction found with
  | nil => exact nofun
  | cons m found ih =>
    rw [jsonLines]
    split
    · exact nofun
    · intro h
      cases hrest : p.jsonLines found with
      | ok rest =>
        rw [hrest] at h
        cases h
      | error u =>
        rw [hrest] at h
        cases h
        exact ih hrest

/-- The rows of matches can be put on a sheet, unless names are to be aligned and one is too wide. -/
theorem sheet?_eq_none_iff (hp : p.Draws) {mode : PrintMode} {found : List Match}
    (h : ∀ m ∈ found, m.Prints) : p.sheet? mode found = none ↔
      mode = .vertical ∧ ∃ m ∈ found, ∃ name ∈ m.bindings.keys, maxAligned < name.utf8ByteSize := by
  have hwide : (∃ m ∈ found, ∃ name ∈ m.bindings.keys, maxAligned < name.utf8ByteSize) ↔
      ¬nameWidth (names found ++ ["path"]) ≤ maxAligned := by
    have hpath : "path".utf8ByteSize ≤ maxAligned := by decide
    rw [nameWidth_le_iff, List.forall_mem_append, List.forall_mem_singleton]
    simp only [mem_names, hpath, and_true]
    grind
  obtain ⟨rows, hrows, hplain⟩ := exists_mapM fun m hm => exists_row? (h m hm) (names found)
  have hheader : ∀ row ∈ (names found ++ ["path"]) :: rows, ∀ s ∈ row, IsPlain s := by
    refine List.forall_mem_cons.mpr ⟨fun s hs => ?_, hplain⟩
    rcases List.mem_append.mp hs with hs | hs
    · obtain ⟨m, hm, hs⟩ := mem_names.mp hs
      exact (h m hm).names s hs
    · rw [List.mem_singleton.mp hs]
      decide
  obtain ⟨table, htable⟩ := Option.isSome_iff_exists.mp (hp.table _ _ hheader)
  rw [hwide]
  by_cases hmode : mode = .vertical <;> simp [sheet?, hrows, htable, hmode, renderVertical?]

/-- **Matches have a text**, unless they are printed line by line and a name is too wide. -/
theorem print_eq_crash_iff (hp : p.Draws) {mode : PrintMode} {found : List Match} {ms : Nat}
    (h : ∀ m ∈ found, m.Prints) : p.print mode found ms = .error .crash ↔
      mode = .vertical ∧ ∃ m ∈ found, ∃ name ∈ m.bindings.keys, maxAligned < name.utf8ByteSize := by
  have hsheet : p.sheet? mode found = none ↔ _ := sheet?_eq_none_iff hp h
  cases mode with
  | json => simp [print, jsonLines_ne_crash]
  | table | vertical =>
    rw [← hsheet]
    unfold print
    cases found with
    | nil => simp_all
    | cons m found =>
      simp only [List.isEmpty_cons, Bool.false_eq_true, if_false]
      split <;> simp_all

end Printer

/-! ## What a pattern of the language matches -/

theorem PathExpr.WellFormed.factor {x : PathExpr} (hx : x.WellFormed) {t : Term} (ht : t ∈ x.terms)
    {f : Factor} (hf : f ∈ t) : f.WellFormed := by
  have hterm : TermWellFormed t := by
    cases x with
    | term own =>
      obtain rfl := List.mem_singleton.mp ht
      rw [WellFormed] at hx
      exact hx.2
    | union ts | multiset ts =>
      rw [WellFormed] at hx
      exact (termsWellFormed_iff.mp hx.2 t ht).2
  exact termWellFormed_iff.mp hterm f hf

theorem Element.WellFormed.body {e : Element} (he : e.WellFormed) {body : PathExpr}
    (hbody : e.body? = some body) : body.WellFormed := by
  cases e with
  | node f => cases hbody
  | edge pattern => cases hbody
  | group name mode inner condition =>
    cases hbody
    rw [WellFormed] at he
    exact he.2.1.2

theorem Element.WellFormed.isName {e : Element} (he : e.WellFormed) {repeated : Bool} {name : String}
    (hname : (e.place repeated).name? = some name) : Parser.IsName name := by
  cases e with
  | node f =>
    rw [WellFormed] at he
    exact (he.name name hname).1
  | edge pattern =>
    rw [WellFormed] at he
    exact (he.filler.name name hname).1
  | group own mode body condition =>
    rw [WellFormed] at he
    exact he.1 name hname

/-- What stands in a pattern of the language is of the language. -/
theorem PathExpr.Has.wellFormed {x : PathExpr} {address : List Nat} {repeated : Bool} {f : Factor}
    (h : x.Has address repeated f) (hx : x.WellFormed) : f.element.WellFormed := by
  induction h with
  | here ht hf =>
    have hfactor := hx.factor (List.mem_of_getElem? ht) (List.mem_of_getElem? hf)
    rw [Factor.WellFormed] at hfactor
    exact hfactor.1
  | inside ht hf hbody _ ih =>
    have hfactor := hx.factor (List.mem_of_getElem? ht) (List.mem_of_getElem? hf)
    rw [Factor.WellFormed] at hfactor
    exact ih (hfactor.1.body hbody)

theorem PathPattern.WellFormed.isName {p : PathPattern} (h : p.WellFormed) {l : Place} (hl : l ∈ p.places)
    {name : String} (hname : l.name? = some name) : Parser.IsName name := by
  rw [places, PathExpr.places_located] at hl
  obtain ⟨o, ho, hl⟩ := List.mem_flatMap.mp hl
  obtain rfl := List.mem_singleton.mp hl
  exact (((PathExpr.mem_located_iff _ _).mp ho).wellFormed h.expr).isName hname

theorem PathPattern.Binds.isName {p : PathPattern} (hp : p.WellFormed) {path : Path} {b : String × Bound}
    (h : p.Binds path b) : Parser.IsName b.1 := by
  rcases h with ⟨hname, -⟩ | ⟨l, hl, hname, -⟩
  · exact hp.name b.1 hname
  · exact hp.isName hl hname

/-- What a path pattern binds on a walk has a text, if it is of the kind of its variable: a path is the
walk or a segment of it. -/
theorem PathPattern.Binds.isSome_render? {p : PathPattern} {ds : List Declaration} {kinds : VariableKinds}
    (hkinds : VariableKinds.ofDeclarations ds = .ok kinds) (hp : p.declarations ⊆ ds) {path : Path}
    (hpath : path.vertices.length = path.edges.length + 1) {name : String} {b : Bound}
    (h : p.Binds path (name, b)) {kind : VariableKind} (hkind : kinds.get? name = some kind)
    (hdescribes : kind.Describes b) : b.render?.isSome = true := by
  cases b with
  | vertex | edge | group => rfl
  | path sub =>
    have hkind : kinds.get? name = some .path := by
      cases kind with
      | path => exact hkind
      | _ => exact hdescribes.elim
    obtain ⟨_, hsub, hown⟩ := h.bindsPath hkinds hp hkind
    cases hsub
    refine Path.isSome_render? ?_
    rcases hown with ⟨-, rfl⟩ | ⟨_, _, _, -, hsegment, -⟩
    · exact hpath
    · exact hsegment.1

/-- **What a pattern of the language matches can be printed.** -/
theorem GraphPattern.matches_prints {p : GraphPattern} {g : Graph} {config : MatchConfig} (hg : g.Built)
    (hp : p.WellFormed) {found : List Match}
    (h : (p.matches ⟨g.store, config, []⟩).map (·.1) = .ok found) : ∀ m ∈ found, m.Prints := by
  obtain ⟨⟨kinds, hvalid⟩, hfound⟩ := mem_matches h
  have hkinds := kind_of_validate hvalid
  intro m hm
  obtain ⟨xs, last, hchain, rfl, -⟩ := hfound m hm
  obtain ⟨hlegal, hbound⟩ := hchain.legal hg.indexed rfl rfl
  obtain ⟨hsound, -⟩ := hchain.sound hg.indexed rfl rfl hkinds
    (fun q hq => PathPattern.declarations_subset hq) (Bindings.sound_nil kinds [])
  have hprints {b : String × Bound} (hb : b ∈ Join.combine [] last) :
      IsPlain b.1 ∧ b.2.render?.isSome = true := by
    have hlast : b ∈ last := (Join.mem_combine hb).resolve_left List.not_mem_nil
    obtain ⟨i, q, x, hq, hx, hbinds⟩ := (hbound b hlast).resolve_left List.not_mem_nil
    have hqp : q ∈ p.paths := List.mem_of_getElem? hq
    obtain ⟨kind, hkind, hdescribes, -⟩ := hsound b hlast
    exact ⟨isPlain_name (hbinds.isName (hp.path q hqp)),
      hbinds.isSome_render? hkinds (PathPattern.declarations_subset hqp)
        (hlegal i q x hq hx).1.length_vertices hkind hdescribes⟩
  refine ⟨fun name hname => ?_, fun b hb => (hprints hb).2, fun path hpath => ?_⟩
  · obtain ⟨b, hb, rfl⟩ := List.mem_map.mp hname
    exact (hprints hb).1
  · obtain ⟨x, hx, rfl⟩ := List.mem_map.mp hpath
    obtain ⟨i, hi⟩ := List.getElem?_of_mem hx
    have hlt : i < p.paths.length := by
      have := (List.getElem?_eq_some_iff.mp hi).1
      rwa [hchain.length_eq] at this
    have hwalk := (hlegal i _ x (List.getElem?_eq_getElem hlt) hi).1
    exact Path.isSome_render? hwalk.length_vertices

end GraphPatterns
