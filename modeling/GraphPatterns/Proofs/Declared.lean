/-
What a pattern declares, and in which order. A variable is declared by a path pattern, a node, an edge or
a group between parentheses (`GraphPattern.DeclaresAt`). Validation enters the declarations one by one.
It gets through if each variable is declared with one kind and no variable for a sub-path is repeated
(`GraphPattern.exists_kinds_iff`), and then has the variables in the order of their first declarations
(`GraphPattern.declaredKinds`).
-/
import GraphPatterns.Proofs.Occurrences
import Mathlib.Data.List.Nodup

namespace GraphPatterns

namespace GraphPattern

/-- A factor stands in one of the path patterns. The first number of its address is that of the path
pattern. -/
inductive Has (g : GraphPattern) : List Nat → Bool → Factor → Prop where
  | inPath {i : Nat} {p : PathPattern} {address : List Nat} {repeated : Bool} {f : Factor}
    (hp : g.paths[i]? = some p) (h : p.expr.Has address repeated f) : Has g (i :: address) repeated f

/-- A variable is declared at an address: by a path pattern for its path, or by a node, an edge or a group
between parentheses. What is repeated stands for a list. -/
inductive DeclaresAt (g : GraphPattern) : List Nat → String → VariableKind → Prop where
  | path {i : Nat} {p : PathPattern} {name : String} (hp : g.paths[i]? = some p)
    (hname : p.name = some name) : DeclaresAt g [i] name .path
  | node {address : List Nat} {repeated : Bool} {f : NodePattern} {q : Option Quantifier}
    {name : String} (h : g.Has address repeated (.mk (.node f) q)) (hname : f.name = some name) :
    DeclaresAt g address name (if repeated then .nodeGroup else .node)
  | edge {address : List Nat} {repeated : Bool} {pattern : EdgePattern} {q : Option Quantifier}
    {name : String} (h : g.Has address repeated (.mk (.edge pattern) q))
    (hname : pattern.filler.name = some name) :
    DeclaresAt g address name (if repeated then .edgeGroup else .edge)
  | subpath {address : List Nat} {repeated : Bool} {name : String} {mode : Option PathMode}
    {body : PathExpr} {condition : Option Expr} {q : Option Quantifier}
    (h : g.Has address repeated (.mk (.group (some name) mode body condition) q)) :
    DeclaresAt g address name .path

/-- The kinds of the declared variables: each variable once, in the order of the first declarations. -/
structure DeclaredKinds (g : GraphPattern) (kinds : VariableKinds) : Prop where
  once : kinds.keys.Nodup
  mem_iff : ∀ name kind, (name, kind) ∈ kinds ↔ ∃ address, g.DeclaresAt address name kind
  ordered : kinds.keys.Pairwise fun a b => ∃ first kind, g.DeclaresAt first a kind ∧
    ∀ later kind', g.DeclaresAt later b kind' → first < later

end GraphPattern

/-! ## Declarations in order -/

theorem Place.length_declaration_le (l : Place) : l.declaration.length ≤ 1 := by
  have h := congrArg List.length l.names_declaration
  rw [List.length_map] at h
  rw [h]
  cases l.name? <;> simp

/-- The declarations of a path pattern with their addresses. Its own variable stands before all others. -/
def PathPattern.located (p : PathPattern) : List (Located Declaration) :=
  p.name.toList.map (fun name => ⟨[], .variable name .path⟩) ++
    p.expr.located.flatMap fun l =>
      (l.item.factor.element.place l.item.repeated).declaration.map fun d => ⟨l.address, d⟩

theorem PathPattern.items_located (p : PathPattern) : p.located.map (·.item) = p.declarations := by
  rw [declarations, p.expr.declarations_eq, p.expr.places_located false, located, List.map_append,
    List.map_flatMap, List.flatMap_assoc]
  congr 1
  · cases p.name <;> rfl
  · exact List.flatMap_congr fun l _ => by simp [Function.comp_def]

theorem PathPattern.sorted_located (p : PathPattern) : p.located.Pairwise Located.Before := by
  rw [located, List.pairwise_append, List.pairwise_flatMap]
  refine ⟨?_, ⟨fun l _ => ?_, ?_⟩, fun l hl l' hl' => ?_⟩
  · cases p.name with
    | none => exact .nil
    | some name => exact List.pairwise_singleton _ _
  · have hlength := (l.item.factor.element.place l.item.repeated).length_declaration_le
    match (l.item.factor.element.place l.item.repeated).declaration, hlength with
    | [], _ => exact .nil
    | [d], _ => exact List.pairwise_singleton _ _
  · refine p.expr.sorted_located.imp fun h l hl l' hl' => ?_
    obtain ⟨d, -, rfl⟩ := List.mem_map.mp hl
    obtain ⟨d', -, rfl⟩ := List.mem_map.mp hl'
    exact h
  · obtain ⟨name, -, rfl⟩ := List.mem_map.mp hl
    obtain ⟨o, ho, hl'⟩ := List.mem_flatMap.mp hl'
    obtain ⟨d, -, rfl⟩ := List.mem_map.mp hl'
    obtain ⟨_, _, _, _, _, _, _, _, _, rfl⟩ := PathExpr.mem_located.mp ho
    exact List.nil_lt_cons _ _

namespace GraphPattern

/-- What is read off the factors in the path patterns is read off those that stand in the pattern. -/
theorem exists_located_iff {g : GraphPattern} {P : Bool → Factor → Prop} :
    (∃ p ∈ g.paths, ∃ l ∈ p.expr.located, P l.item.repeated l.item.factor) ↔
      ∃ address repeated f, g.Has address repeated f ∧ P repeated f := by
  constructor
  · rintro ⟨p, hp, l, hl, h⟩
    obtain ⟨i, hp⟩ := List.mem_iff_getElem?.mp hp
    exact ⟨_, _, _, .inPath hp ((p.expr.mem_located_iff l).mp hl), h⟩
  · rintro ⟨_, repeated, f, ⟨hp, hf⟩, h⟩
    exact ⟨_, List.mem_of_getElem? hp, ⟨_, repeated, f⟩, (PathExpr.mem_located_iff _ _).mpr hf, h⟩

/-- The declarations of a pattern with their addresses. -/
def located (g : GraphPattern) : List (Located Declaration) :=
  g.paths.zipIdx.flatMap fun p => p.1.located.map (.under p.2)

theorem items_located (g : GraphPattern) :
    g.located.map (·.item) = g.paths.flatMap PathPattern.declarations := by
  conv_rhs => rw [← List.zipIdx_map_fst 0 g.paths, List.flatMap_map]
  rw [located, List.map_flatMap]
  refine List.flatMap_congr fun p _ => ?_
  rw [List.map_map, ← p.1.items_located]
  rfl

theorem sorted_located (g : GraphPattern) : g.located.Pairwise Located.Before :=
  Located.pairwise_parts _ 0 fun p _ => p.sorted_located

theorem mem_located_iff {g : GraphPattern} {address : List Nat} {d : Declaration} :
    ⟨address, d⟩ ∈ g.located ↔
      (∃ i p name, g.paths[i]? = some p ∧ p.name = some name ∧ address = [i] ∧
        d = .variable name .path) ∨
      ∃ repeated f, g.Has address repeated f ∧ d ∈ (f.element.place repeated).declaration := by
  simp only [located, PathPattern.located, List.mem_flatMap, List.mem_map, List.mem_append,
    Prod.exists, List.mem_zipIdx_iff_getElem?, Option.mem_toList]
  constructor
  · rintro ⟨p, i, hp, l, ⟨name, hname, rfl⟩ | ⟨l, hl, d, hd, rfl⟩, hunder⟩
    · cases hunder
      exact .inl ⟨i, p, name, hp, hname, rfl, rfl⟩
    · cases hunder
      exact .inr ⟨_, _, .inPath hp ((p.expr.mem_located_iff l).mp hl), hd⟩
  · rintro (⟨i, p, name, hp, hname, rfl, rfl⟩ | ⟨repeated, f, h, hd⟩)
    · exact ⟨p, i, hp, _, .inl ⟨name, hname, rfl⟩, rfl⟩
    · obtain ⟨hp, h⟩ := h
      exact ⟨_, _, hp, _, .inr ⟨⟨_, repeated, f⟩, (PathExpr.mem_located_iff _ _).mpr h, d, hd, rfl⟩, rfl⟩

variable {g : GraphPattern} {address : List Nat} {name : String} {kind : VariableKind}

/-- What an element declares, by the kind of element. -/
theorem mem_declaration_place {e : Element} {repeated : Bool} {d : Declaration} :
    d ∈ (e.place repeated).declaration ↔ ∃ name,
      match e with
      | .node f => f.name = some name ∧ d = .variable name (if repeated then .nodeGroup else .node)
      | .edge pattern =>
        pattern.filler.name = some name ∧ d = .variable name (if repeated then .edgeGroup else .edge)
      | .group own _ _ _ =>
        own = some name ∧ d = if repeated then .repeatedPath name else .variable name .path := by
  have filler (f : Filler) (kind : VariableKind) :
      d ∈ f.declaration kind ↔ ∃ name, f.name = some name ∧ d = .variable name kind := by
    cases h : f.name <;> simp [Filler.declaration, h]
  cases e with
  | node f => cases repeated <;> exact filler f _
  | edge pattern => cases repeated <;> exact filler pattern.filler _
  | group own mode body condition =>
    cases own <;> cases repeated <;> simp [Element.place, Place.declaration]

theorem declaresAt_of_mem (h : ⟨address, .variable name kind⟩ ∈ g.located) :
    g.DeclaresAt address name kind := by
  rcases mem_located_iff.mp h with ⟨i, p, own, hp, hname, rfl, hd⟩ | ⟨repeated, ⟨e, q⟩, hf, hd⟩
  · cases hd
    exact .path hp hname
  · rw [mem_declaration_place] at hd
    obtain ⟨own, hd⟩ := hd
    cases e with
    | node f =>
      obtain ⟨hname, ⟨⟩⟩ := hd
      exact .node hf hname
    | edge pattern =>
      obtain ⟨hname, ⟨⟩⟩ := hd
      exact .edge hf hname
    | group name' mode body condition =>
      obtain ⟨rfl, hd⟩ := hd
      cases repeated <;> cases hd
      exact .subpath hf

/-- What is refused as the variable of a sub-path is one that is repeated. -/
theorem mem_repeatedPath_iff : ⟨address, .repeatedPath name⟩ ∈ g.located ↔
    ∃ mode body condition q, g.Has address true (.mk (.group (some name) mode body condition) q) := by
  rw [mem_located_iff]
  constructor
  · rintro (⟨_, _, _, _, _, _, hd⟩ | ⟨repeated, ⟨e, q⟩, hf, hd⟩)
    · cases hd
    · rw [mem_declaration_place] at hd
      obtain ⟨own, hd⟩ := hd
      cases e with
      | node _ | edge _ => cases hd.2
      | group name' mode body condition =>
        obtain ⟨rfl, hd⟩ := hd
        cases repeated <;> cases hd
        exact ⟨mode, body, condition, q, hf⟩
  · rintro ⟨mode, body, condition, q, hf⟩
    exact .inr ⟨true, _, hf, mem_declaration_place.mpr ⟨name, rfl, rfl⟩⟩

/-- A declaration that stands in a pattern is read off it, unless it is one of a repeated sub-path. -/
theorem mem_located_of_declaresAt (h : g.DeclaresAt address name kind) :
    ⟨address, .variable name kind⟩ ∈ g.located ∨ ⟨address, .repeatedPath name⟩ ∈ g.located := by
  cases h with
  | path hp hname => exact .inl (mem_located_iff.mpr (.inl ⟨_, _, _, hp, hname, rfl, rfl⟩))
  | node hf hname | edge hf hname =>
    exact .inl (mem_located_iff.mpr
      (.inr ⟨_, _, hf, mem_declaration_place.mpr ⟨name, hname, rfl⟩⟩))
  | @subpath _ repeated _ mode body condition q hf =>
    cases repeated with
    | false =>
      exact .inl (mem_located_iff.mpr (.inr ⟨false, _, hf, mem_declaration_place.mpr ⟨name, rfl, rfl⟩⟩))
    | true => exact .inr (mem_repeatedPath_iff.mpr ⟨mode, body, condition, q, hf⟩)

theorem mem_declarations_iff {d : Declaration} :
    d ∈ g.paths.flatMap PathPattern.declarations ↔ ∃ address, ⟨address, d⟩ ∈ g.located := by
  rw [← g.items_located, List.mem_map]
  exact ⟨fun ⟨l, hl, hd⟩ => ⟨l.address, hd ▸ hl⟩, fun ⟨address, hl⟩ => ⟨_, hl, rfl⟩⟩

end GraphPattern

/-! ## Kinds in order -/

namespace VariableKinds

theorem keys_declare {kinds later : VariableKinds} {d : Declaration} (h : kinds.declare d = .ok later) :
    d.name ∈ kinds.keys ∧ later.keys = kinds.keys ∨
      d.name ∉ kinds.keys ∧ later.keys = kinds.keys ++ [d.name] := by
  match d with
  | .repeatedPath name => cases h
  | .variable name kind =>
    rw [declare] at h
    cases hfirst : kinds.get? name with
    | none =>
      rw [hfirst] at h
      cases h
      have hnew := Assoc.get?_eq_none_iff.mp hfirst
      exact .inr ⟨hnew, by rw [Assoc.keys_insert, if_neg hnew]; rfl⟩
    | some first =>
      simp only [hfirst] at h
      split at h
      · cases h
        exact .inl ⟨List.mem_map_of_mem (Assoc.mem_of_get? hfirst), rfl⟩
      · cases h

/-- The variables stand in the order of their first declarations, each once. -/
theorem ordered_keys {as : List (Located Declaration)} (hsorted : as.Pairwise Located.Before)
    {kinds : VariableKinds} (h : ofDeclarations (as.map (·.item)) = .ok kinds) :
    kinds.keys.Nodup ∧ (∀ name, name ∈ kinds.keys ↔ ∃ x ∈ as, x.item.name = name) ∧
      kinds.keys.Pairwise fun a b =>
        ∃ x ∈ as, x.item.name = a ∧ ∀ y ∈ as, y.item.name = b → x.Before y := by
  -- From the end: the last declaration is entered last, so all before it have been entered already.
  induction as using List.reverseRecOn generalizing kinds with
  | nil =>
    cases h
    exact ⟨.nil, by simp [Assoc.keys], .nil⟩
  | append_singleton as last ih =>
    obtain ⟨hold, -, hlast⟩ := List.pairwise_append.mp hsorted
    have hlast : ∀ x ∈ as, x.Before last := fun x hx => hlast x hx last (List.mem_singleton_self _)
    rw [List.map_append, List.map_singleton, ofDeclarations_concat, Except.bind_eq_ok_iff] at h
    obtain ⟨before, hbefore, hdeclare⟩ := h
    obtain ⟨hnodup, hmem, hordered⟩ := ih hold hbefore
    have hordered : before.keys.Pairwise fun a b =>
        ∃ x ∈ as ++ [last], x.item.name = a ∧ ∀ y ∈ as ++ [last], y.item.name = b → x.Before y := by
      refine hordered.imp fun hfirst => ?_
      obtain ⟨x, hx, hname, hfirst⟩ := hfirst
      refine ⟨x, List.mem_append_left _ hx, hname, fun y hy hy' => ?_⟩
      rcases List.mem_append.mp hy with hy | hy
      · exact hfirst y hy hy'
      · rw [List.mem_singleton.mp hy]
        exact hlast x hx
    have hnames (name : String) : (∃ x ∈ as ++ [last], x.item.name = name) ↔
        name ∈ before.keys ∨ last.item.name = name := by
      simp only [List.mem_append, List.mem_singleton, or_and_right, exists_or, exists_eq_left, hmem]
    simp only [hnames]
    rcases keys_declare hdeclare with ⟨hthere, hkeys⟩ | ⟨hnew, hkeys⟩
    · rw [hkeys]
      exact ⟨hnodup, fun name => ⟨.inl, fun h => h.elim id fun heq => heq ▸ hthere⟩, hordered⟩
    · rw [hkeys]
      refine ⟨?_, fun name => by simp [eq_comm], ?_⟩
      · rw [← List.concat_eq_append]
        exact hnodup.concat hnew
      · refine List.pairwise_append.mpr ⟨hordered, List.pairwise_singleton _ _, fun a ha b hb => ?_⟩
        obtain rfl := List.mem_singleton.mp hb
        obtain ⟨x, hx, hname⟩ := (hmem a).mp ha
        refine ⟨x, List.mem_append_left _ hx, hname, fun y hy hy' => ?_⟩
        rcases List.mem_append.mp hy with hy | hy
        · exact absurd ((hmem _).mpr ⟨y, hy, hy'⟩) hnew
        · rw [List.mem_singleton.mp hy]
          exact hlast x hx

end VariableKinds

namespace GraphPattern

variable {g : GraphPattern} {address : List Nat} {name : String} {kind : VariableKind}
  {kinds : VariableKinds}

/-- In a pattern that makes sense what stands in it is what is read off it. -/
theorem declaresAt_iff (h : VariableKinds.ofDeclarations (g.paths.flatMap PathPattern.declarations) =
    .ok kinds) : g.DeclaresAt address name kind ↔ ⟨address, .variable name kind⟩ ∈ g.located := by
  refine ⟨fun hd => (mem_located_of_declaresAt hd).resolve_right fun hpath => ?_, declaresAt_of_mem⟩
  obtain ⟨_, _, heq, -⟩ := VariableKinds.of_mem h (mem_declarations_iff.mpr ⟨_, hpath⟩)
  cases heq

theorem get?_iff (h : VariableKinds.ofDeclarations (g.paths.flatMap PathPattern.declarations) =
    .ok kinds) : kinds.get? name = some kind ↔ ∃ address, g.DeclaresAt address name kind := by
  simp only [declaresAt_iff h, ← mem_declarations_iff]
  refine ⟨VariableKinds.declared_of_get? h, fun hd => ?_⟩
  obtain ⟨_, _, heq, hget⟩ := VariableKinds.of_mem h hd
  cases heq
  exact hget

/-- **The kinds that validation finds are those of the declarations**, in the order of the addresses. -/
theorem declaredKinds (h : VariableKinds.ofDeclarations (g.paths.flatMap PathPattern.declarations) =
    .ok kinds) : g.DeclaredKinds kinds := by
  obtain ⟨hnodup, -, hordered⟩ :=
    VariableKinds.ordered_keys g.sorted_located (g.items_located ▸ h)
  refine ⟨hnodup, fun name kind => ?_, hordered.imp fun ⟨x, hx, hname, hfirst⟩ => ?_⟩
  · rw [← get?_iff h]
    exact ⟨Assoc.get?_of_mem hnodup, Assoc.mem_of_get?⟩
  · obtain ⟨address, d⟩ := x
    obtain ⟨own, kind, rfl, -⟩ := VariableKinds.of_mem h (mem_declarations_iff.mpr ⟨address, hx⟩)
    refine ⟨address, kind, (declaresAt_iff h).mpr (hname ▸ hx), fun later kind' hlater => ?_⟩
    exact hfirst _ ((declaresAt_iff h).mp hlater) rfl

theorem DeclaredKinds.mem_keys_iff (h : g.DeclaredKinds kinds) :
    name ∈ kinds.keys ↔ ∃ address kind, g.DeclaresAt address name kind := by
  constructor
  · intro hkey
    obtain ⟨⟨_, kind⟩, hentry, rfl⟩ := List.mem_map.mp hkey
    obtain ⟨address, hd⟩ := (h.mem_iff _ _).mp hentry
    exact ⟨address, kind, hd⟩
  · rintro ⟨address, kind, hd⟩
    exact List.mem_map_of_mem ((h.mem_iff name kind).mpr ⟨address, hd⟩)

/-- The declarations of a pattern make sense if each variable has one kind and no variable of a sub-path
is repeated. -/
theorem exists_kinds_iff :
    (∃ kinds, VariableKinds.ofDeclarations (g.paths.flatMap PathPattern.declarations) = .ok kinds) ↔
      (∀ {name here there kind kind'}, g.DeclaresAt here name kind → g.DeclaresAt there name kind' →
        kind = kind') ∧
      ∀ {address repeated name mode body condition q},
        g.Has address repeated (.mk (.group (some name) mode body condition) q) → repeated = false := by
  constructor
  · rintro ⟨kinds, h⟩
    refine ⟨fun hd hd' => ?_, fun {_ repeated name mode body condition q} hf => ?_⟩
    · have hkind := (get?_iff h).mpr ⟨_, hd⟩
      exact Option.some.inj (hkind.symm.trans ((get?_iff h).mpr ⟨_, hd'⟩))
    · rw [← Bool.not_eq_true]
      rintro rfl
      have hpath := mem_declarations_iff.mpr ⟨_, mem_repeatedPath_iff.mpr ⟨mode, body, condition, q, hf⟩⟩
      obtain ⟨_, _, heq, -⟩ := VariableKinds.of_mem h hpath
      cases heq
  · rintro ⟨hone, hpath⟩
    refine VariableKinds.exists_ofDeclarations_iff.mpr ⟨fun name hd => ?_, fun name kind kind' hd hd' => ?_⟩
    · obtain ⟨address, hd⟩ := mem_declarations_iff.mp hd
      obtain ⟨_, _, _, _, hf⟩ := mem_repeatedPath_iff.mp hd
      cases hpath hf
    · obtain ⟨_, hd⟩ := mem_declarations_iff.mp hd
      obtain ⟨_, hd'⟩ := mem_declarations_iff.mp hd'
      exact hone (declaresAt_of_mem hd) (declaresAt_of_mem hd')

end GraphPattern

end GraphPatterns
