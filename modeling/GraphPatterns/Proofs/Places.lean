/-
The places of a pattern, at which its nodes, edges and groups are matched. A pattern declares what its
places declare (`PathExpr.declarations_eq`), and its code matches what stands at its places
(`PathExpr.code_places`); so the variables that the code binds to groups are those of its places under
quantifiers (`PathExpr.groupVariables_eq`).

In a pattern that makes sense all declarations of a variable are of one kind (`VariableKinds.of_mem`).
-/
import GraphPatterns.Matching.Program
import GraphPatterns.Pattern.Validation
import Mathlib.Data.List.Basic

namespace GraphPatterns

/-! ## Places -/

/-- A place of a pattern at which something is matched, and whether there is a quantifier around it. -/
inductive Place where
  | node (f : NodePattern) (repeated : Bool)
  | edge (pattern : EdgePattern) (repeated : Bool)
  | group (name : Option String) (mode : PathMode) (condition : Option Expr) (repeated : Bool)

mutual

/-- The places of a choice between terms, from left to right. -/
def PathExpr.places (repeated : Bool) : PathExpr → List Place
  | .term factors => termPlaces repeated factors
  | .union terms => choicePlaces repeated terms
  | .multiset terms => choicePlaces repeated terms

def choicePlaces (repeated : Bool) : List (List Factor) → List Place
  | [] => []
  | t :: rest => termPlaces repeated t ++ choicePlaces repeated rest

def termPlaces (repeated : Bool) : List Factor → List Place
  | [] => []
  | f :: rest => f.places repeated ++ termPlaces repeated rest

def Factor.places (repeated : Bool) : Factor → List Place
  | .mk e q => e.places (repeated || q.isSome)

def Element.places (repeated : Bool) : Element → List Place
  | .node f => [.node f repeated]
  | .edge pattern => [.edge pattern repeated]
  | .group name mode body condition =>
    .group name (mode.getD .walk) condition repeated :: body.places repeated

end

/-- The places of a path pattern. -/
def PathPattern.places (p : PathPattern) : List Place := p.expr.places false

namespace Place

/-- The variable of a place. -/
def name? : Place → Option String
  | node f _ => f.name
  | edge pattern _ => pattern.filler.name
  | group name _ _ _ => name

/-- The kind of thing that the variable of a place stands for. -/
def kind : Place → VariableKind
  | node _ repeated => VariableKind.node.underQuantifier repeated
  | edge _ repeated => VariableKind.edge.underQuantifier repeated
  | group _ _ _ _ => .path

/-- What a place declares, if it has a variable. -/
def declaration (l : Place) : List Declaration :=
  match l with
  | node f repeated => f.declaration (VariableKind.node.underQuantifier repeated)
  | edge pattern repeated => pattern.filler.declaration (VariableKind.edge.underQuantifier repeated)
  | group none _ _ _ => []
  | group (some name) _ _ repeated =>
    if repeated then [.repeatedPath name] else [.variable name .path]

/-- The variable of a place under a quantifier, which is bound to a group. -/
def groupVariable? : Place → Option (String × VariableKind)
  | node f true => f.name.map (·, .nodeGroup)
  | edge pattern true => pattern.filler.name.map (·, .edgeGroup)
  | _ => none

theorem kind_eq_path {l : Place} {name : String} (hname : l.name? = some name) (h : l.kind = .path) :
    ∃ mode condition repeated, l = .group (some name) mode condition repeated := by
  cases l with
  | node f repeated => cases repeated <;> cases h
  | edge pattern repeated => cases repeated <;> cases h
  | group name' mode condition repeated =>
    cases hname
    exact ⟨mode, condition, repeated, rfl⟩

theorem eq_edge_of_kind {l : Place} (h : l.kind = .edgeGroup) : ∃ pattern, l = .edge pattern true := by
  cases l with
  | node f repeated => cases repeated <;> cases h
  | edge pattern repeated =>
    cases repeated with
    | false => cases h
    | true => exact ⟨pattern, rfl⟩
  | group => cases h

theorem isGroup_kind {l : Place} {name : String} (hname : l.name? = some name) :
    l.kind.isGroup = l.groupVariable?.isSome := by
  cases l with
  | node f repeated =>
    have hf : f.name = some name := hname
    cases repeated <;> simp [kind, groupVariable?, hf, VariableKind.underQuantifier,
      VariableKind.grouped, VariableKind.isGroup]
  | edge pattern repeated =>
    have hf : pattern.filler.name = some name := hname
    cases repeated <;> simp [kind, groupVariable?, hf, VariableKind.underQuantifier,
      VariableKind.grouped, VariableKind.isGroup]
  | group => rfl

theorem groupVariable?_node {f : NodePattern} {repeated : Bool} (h : repeated = true) :
    (node f repeated).groupVariable? = f.name.map (·, .nodeGroup) := by
  rw [h]
  rfl

theorem groupVariable?_edge {pattern : EdgePattern} {repeated : Bool} (h : repeated = true) :
    (edge pattern repeated).groupVariable? = pattern.filler.name.map (·, .edgeGroup) := by
  rw [h]
  rfl

/-- The names that some places bind to groups. -/
def groupNames (places : List Place) : List String :=
  places.filterMap fun l => l.groupVariable?.map (·.1)

theorem mem_groupNames {places : List Place} {l : Place} (hl : l ∈ places) {v : String × VariableKind}
    (hv : l.groupVariable? = some v) : v.1 ∈ groupNames places :=
  List.mem_filterMap.mpr ⟨l, hl, by rw [hv]; rfl⟩

theorem name?_of_groupVariable? {l : Place} {v : String × VariableKind} (h : l.groupVariable? = some v) :
    l.name? = some v.1 := by
  cases l with
  | node f repeated =>
    cases repeated with
    | false => cases h
    | true =>
      obtain ⟨name, hname, rfl⟩ := Option.map_eq_some_iff.mp h
      exact hname
  | edge pattern repeated =>
    cases repeated with
    | false => cases h
    | true =>
      obtain ⟨name, hname, rfl⟩ := Option.map_eq_some_iff.mp h
      exact hname
  | group name mode condition repeated => cases h

/-- What a variable under a quantifier stands for is of the kind of its place. -/
theorem kind_of_groupVariable? {l : Place} {v : String × VariableKind} (h : l.groupVariable? = some v) :
    l.kind = v.2 := by
  cases l with
  | node f repeated =>
    cases repeated with
    | false => cases h
    | true =>
      obtain ⟨name, -, rfl⟩ := Option.map_eq_some_iff.mp h
      rfl
  | edge pattern repeated =>
    cases repeated with
    | false => cases h
    | true =>
      obtain ⟨name, -, rfl⟩ := Option.map_eq_some_iff.mp h
      rfl
  | group name mode condition repeated => cases h

/-- The filler of a place, and whether there is a quantifier around it. -/
def filler? : Place → Option (Filler × Bool)
  | node f repeated => some (f, repeated)
  | edge pattern repeated => some (pattern.filler, repeated)
  | group _ _ _ _ => none

theorem groupVariable?_of_filler? {l : Place} {f : Filler} {repeated : Bool}
    (h : l.filler? = some (f, repeated)) :
    ∃ kind, repeated = true → l.groupVariable? = f.name.map (·, kind) := by
  cases l with
  | node _ _ =>
    cases h
    exact ⟨_, groupVariable?_node⟩
  | edge _ _ =>
    cases h
    exact ⟨_, groupVariable?_edge⟩
  | group _ _ _ _ => cases h

theorem mem_groupNames_of_filler? {places : List Place} {l : Place} (hl : l ∈ places) {f : Filler}
    (h : l.filler? = some (f, true)) {name : String} (hname : f.name = some name) :
    name ∈ groupNames places := by
  obtain ⟨kind, hgroup⟩ := groupVariable?_of_filler? h
  exact mem_groupNames hl (v := (name, kind)) (by rw [hgroup rfl, hname]; rfl)

theorem name?_of_filler? {l : Place} {f : Filler} {repeated : Bool}
    (h : l.filler? = some (f, repeated)) : l.name? = f.name := by
  cases l with
  | node _ _ =>
    cases h
    rfl
  | edge _ _ =>
    cases h
    rfl
  | group _ _ _ _ => cases h

end Place

mutual

theorem PathExpr.declarations_eq : ∀ (x : PathExpr) (repeated : Bool),
    x.declarations repeated = (x.places repeated).flatMap Place.declaration
  | .term factors, repeated => by
    rw [PathExpr.declarations, PathExpr.places, term_declarations_eq]
  | .union terms, repeated => by
    rw [PathExpr.declarations, PathExpr.places, choice_declarations_eq]
  | .multiset terms, repeated => by
    rw [PathExpr.declarations, PathExpr.places, choice_declarations_eq]

theorem choice_declarations_eq : ∀ (terms : List (List Factor)) (repeated : Bool),
    termsDeclarations repeated terms = (choicePlaces repeated terms).flatMap Place.declaration
  | [], repeated => by rw [termsDeclarations, choicePlaces, List.flatMap_nil]
  | t :: rest, repeated => by
    rw [termsDeclarations, choicePlaces, List.flatMap_append, term_declarations_eq,
      choice_declarations_eq]

theorem term_declarations_eq : ∀ (factors : List Factor) (repeated : Bool),
    termDeclarations repeated factors = (termPlaces repeated factors).flatMap Place.declaration
  | [], repeated => by rw [termDeclarations, termPlaces, List.flatMap_nil]
  | f :: rest, repeated => by
    rw [termDeclarations, termPlaces, List.flatMap_append, f.declarations_eq, term_declarations_eq]

theorem Factor.declarations_eq : ∀ (f : Factor) (repeated : Bool),
    f.declarations repeated = (f.places repeated).flatMap Place.declaration
  | .mk e q, repeated => by rw [Factor.declarations, Factor.places, e.declarations_eq]

theorem Element.declarations_eq : ∀ (e : Element) (repeated : Bool),
    e.declarations repeated = (e.places repeated).flatMap Place.declaration
  | .node f, repeated => by simp [Element.declarations, Element.places, Place.declaration]
  | .edge pattern, repeated => by simp [Element.declarations, Element.places, Place.declaration]
  | .group none mode body condition, repeated => by
    rw [Element.declarations, Element.places, List.flatMap_cons, body.declarations_eq]
    rfl
  | .group (some name) mode body condition, repeated => by
    rw [Element.declarations, Element.places, List.flatMap_cons, body.declarations_eq]
    rfl

end

/-! ## Code -/

/-- Whether a node or an edge is matched at a place. -/
def Place.isElement : Place → Bool
  | .node _ _ | .edge _ _ => true
  | .group _ _ _ _ => false

/-- The node or the edge that an instruction matches. -/
def Inst.place? : Inst → Option Place
  | .node f grouped => some (.node f grouped)
  | .edge pattern grouped => some (.edge pattern grouped)
  | _ => none

mutual

/-- The code of a pattern has one instruction for each node and each edge, in their order and grouped
where there is a quantifier around the place. -/
theorem PathExpr.code_places : ∀ (x : PathExpr) (repeated : Bool),
    (x.code repeated).filterMap Inst.place? = (x.places repeated).filter Place.isElement
  | .term factors, repeated => by
    rw [PathExpr.code, PathExpr.places, term_code_places]
  | .union terms, repeated => by
    rw [PathExpr.code, PathExpr.places, choice_code_places]
  | .multiset terms, repeated => by
    rw [PathExpr.code, PathExpr.places, choice_code_places]

theorem choice_code_places : ∀ (terms : List (List Factor)) (repeated : Bool),
    (choiceCode repeated terms).filterMap Inst.place? =
      (choicePlaces repeated terms).filter Place.isElement
  | [], repeated => rfl
  | [t], repeated => by
    simp only [choiceCode, choicePlaces, List.isEmpty_nil, if_true, List.append_nil, term_code_places]
  | t :: t' :: rest, repeated => by
    rw [choiceCode, choicePlaces]
    simp only [List.isEmpty_cons, Bool.false_eq_true, if_false, List.cons_append,
      List.filterMap_cons, List.filterMap_append, List.filter_append, Inst.place?, term_code_places,
      choice_code_places]

theorem term_code_places : ∀ (factors : List Factor) (repeated : Bool),
    (termCode repeated factors).filterMap Inst.place? =
      (termPlaces repeated factors).filter Place.isElement
  | [], repeated => rfl
  | f :: rest, repeated => by
    rw [termCode, termPlaces, List.filterMap_append, List.filter_append, f.code_places,
      term_code_places]

theorem Factor.code_places : ∀ (f : Factor) (repeated : Bool),
    (f.code repeated).filterMap Inst.place? = (f.places repeated).filter Place.isElement
  | .mk e none, repeated => by
    rw [Factor.code, Factor.places, e.code_places, Option.isSome_none, Bool.or_false]
  | .mk e (some q), repeated => by
    rw [Factor.code, Factor.places, Option.isSome_some, Bool.or_true, ← e.code_places]
    simp [List.filterMap_cons, Inst.place?]

theorem Element.code_places : ∀ (e : Element) (repeated : Bool),
    (e.code repeated).filterMap Inst.place? = (e.places repeated).filter Place.isElement
  | .node f, repeated => by
    rw [Element.code, Element.places]
    rfl
  | .edge pattern, repeated => by
    rw [Element.code, Element.places]
    rfl
  | .group name mode body condition, repeated => by
    rw [Element.code, Element.places, List.filter_cons_of_neg (by simp [Place.isElement]),
      ← body.code_places]
    simp [List.filterMap_cons, Inst.place?]

end

theorem Inst.groupVariable?_eq (i : Inst) :
    Program.groupVariable? i = i.place?.bind Place.groupVariable? := by
  cases i with
  | node f grouped => cases grouped <;> rfl
  | edge pattern grouped => cases grouped <;> rfl
  | _ => rfl

/-- The code of a pattern binds groups where its places do. -/
theorem PathExpr.groupVariables_eq (x : PathExpr) (repeated : Bool) :
    (x.code repeated).filterMap Program.groupVariable? =
      (x.places repeated).filterMap Place.groupVariable? := by
  have hcode := congrArg (List.filterMap Place.groupVariable?) (x.code_places repeated)
  have hgroup (l : Place) : (if l.isElement = true then l.groupVariable? else none) = l.groupVariable? := by
    cases l <;> rfl
  rw [List.filterMap_filterMap, List.filterMap_filter] at hcode
  simpa only [Inst.groupVariable?_eq, hgroup] using hcode

/-- The group variables of a program are those of the places of its pattern, each once. -/
theorem PathPattern.groupVariables_compile (p : PathPattern) : (Program.compile p).groupVariables =
    (p.places.filterMap Place.groupVariable?).foldl
      (fun (m : Assoc String VariableKind) v => m.insertNew v.1 v.2) [] := by
  rw [Program.groupVariables, Program.compile, List.filterMap_append, PathPattern.places,
    ← p.expr.groupVariables_eq]
  exact congrArg (List.foldl _ []) (List.append_nil _)

theorem PathPattern.mem_groupVariables {p : PathPattern} {v : String × VariableKind}
    (h : v ∈ (Program.compile p).groupVariables) : ∃ l ∈ p.places, l.groupVariable? = some v := by
  rw [p.groupVariables_compile] at h
  rcases Assoc.mem_foldl_insertNew h with h | ⟨w, hw, rfl⟩
  · cases h
  · exact List.mem_filterMap.mp hw

theorem PathPattern.mem_groupNames {p : PathPattern} {name : String} :
    name ∈ Place.groupNames p.places ↔ ∃ v ∈ (Program.compile p).groupVariables, v.1 = name := by
  have hkeys : (∃ v ∈ (Program.compile p).groupVariables, v.1 = name) ↔
      name ∈ (Program.compile p).groupVariables.keys := List.mem_map.symm
  have hnames : Place.groupNames p.places =
      (p.places.filterMap Place.groupVariable?).map (·.1) := List.map_filterMap.symm
  rw [hkeys, p.groupVariables_compile, Assoc.mem_keys_foldl_insertNew, hnames, List.mem_map]
  simp [Assoc.keys]

/-! ## Kinds -/

/-- The variable that a declaration is about. -/
def Declaration.name : Declaration → String
  | .variable name _ => name
  | .repeatedPath name => name

theorem Filler.mem_declaration {f : Filler} {kind : VariableKind} {name : String}
    (h : f.name = some name) : .variable name kind ∈ f.declaration kind := by
  simp [declaration, h]

/-- The names that a path pattern declares, one for each declaration. -/
def PathPattern.declaredNames (p : PathPattern) : List String := p.declarations.map Declaration.name

@[simp] theorem Place.names_declaration (l : Place) :
    l.declaration.map Declaration.name = l.name?.toList := by
  cases l with
  | node f repeated =>
    simp only [declaration, Filler.declaration, name?]
    cases f.name <;> rfl
  | edge pattern repeated =>
    simp only [declaration, Filler.declaration, name?]
    cases pattern.filler.name <;> rfl
  | group name mode condition repeated =>
    cases name with
    | none => rfl
    | some name => cases repeated <;> rfl

/-- The names are that of the path pattern and those of its places. -/
theorem PathPattern.declaredNames_eq (p : PathPattern) :
    p.declaredNames = p.name.toList ++ p.places.filterMap Place.name? := by
  rw [declaredNames, declarations, p.expr.declarations_eq, List.map_append, List.map_flatMap,
    PathPattern.places]
  simp only [Place.names_declaration]
  congr 1
  · cases p.name <;> rfl
  · exact (List.filterMap_eq_flatMap_toList ..).symm

theorem PathPattern.mem_declaredNames {p : PathPattern} {l : Place} (hl : l ∈ p.places) {name : String}
    (hname : l.name? = some name) : name ∈ p.declaredNames := by
  rw [p.declaredNames_eq]
  exact List.mem_append_right _ (List.mem_filterMap.mpr ⟨l, hl, hname⟩)

theorem PathPattern.mem_declarations {p : PathPattern} {l : Place} (hl : l ∈ p.places) {d : Declaration}
    (hd : d ∈ l.declaration) : d ∈ p.declarations := by
  rw [declarations, p.expr.declarations_eq]
  exact List.mem_append_right _ (List.mem_flatMap.mpr ⟨l, hl, hd⟩)

theorem PathPattern.declarations_subset {p : PathPattern} {ps : List PathPattern} (h : p ∈ ps) :
    p.declarations ⊆ ps.flatMap PathPattern.declarations :=
  fun _ hd => List.mem_flatMap.mpr ⟨p, h, hd⟩

/-- Where a variable is declared once, only one place has it. -/
theorem PathPattern.place_unique {p : PathPattern} {name : String} (h : p.declaredNames.count name = 1)
    {l : Place} (hl : l ∈ p.places) (hname : l.name? = some name) :
    p.name ≠ some name ∧ ∀ l' ∈ p.places, l'.name? = some name → l' = l := by
  obtain ⟨before, after, hplaces⟩ := List.append_of_mem hl
  rw [declaredNames_eq, hplaces, List.filterMap_append, List.filterMap_cons, hname] at h
  simp only [List.count_append, List.count_cons_self] at h
  have absent {ls : List Place} (hls : (ls.filterMap Place.name?).count name = 0) {l' : Place}
      (hl' : l' ∈ ls) : l'.name? ≠ some name := fun hname' =>
    List.count_eq_zero.mp hls (List.mem_filterMap.mpr ⟨l', hl', hname'⟩)
  refine ⟨fun hown => ?_, fun l' hl' hname' => ?_⟩
  · rw [hown] at h
    simp at h
  · rw [hplaces] at hl'
    rcases List.mem_append.mp hl' with hbefore | hafter
    · exact absurd hname' (absent (by omega) hbefore)
    · rcases List.mem_cons.mp hafter with rfl | hafter
      · rfl
      · exact absurd hname' (absent (by omega) hafter)

namespace VariableKinds

theorem get?_of_declare {kinds later : VariableKinds} {d : Declaration}
    (h : kinds.declare d = .ok later) :
    (∀ name kind, kinds.get? name = some kind → later.get? name = some kind) ∧
      ∃ name kind, d = .variable name kind ∧ later.get? name = some kind := by
  match d with
  | .repeatedPath name => cases h
  | .variable name kind =>
    rw [declare] at h
    cases hfirst : kinds.get? name with
    | none =>
      rw [hfirst] at h
      cases h
      refine ⟨fun other k hk => ?_, name, kind, rfl, by simp [Assoc.get?_insert]⟩
      have hne : name ≠ other := fun heq => by
        rw [heq, hk] at hfirst
        cases hfirst
      rw [Assoc.get?_insert, if_neg hne, hk]
    | some first =>
      simp only [hfirst] at h
      split at h
      · next heq =>
        cases h
        exact ⟨fun _ _ hk => hk, name, kind, rfl, heq ▸ hfirst⟩
      · cases h

theorem of_mem {ds : List Declaration} {kinds : VariableKinds} (h : ofDeclarations ds = .ok kinds)
    {d : Declaration} (hd : d ∈ ds) :
    ∃ name kind, d = .variable name kind ∧ kinds.get? name = some kind := by
  have key : ∀ (ds : List Declaration) (first : VariableKinds), ds.foldlM declare first = .ok kinds →
      (∀ name kind, first.get? name = some kind → kinds.get? name = some kind) ∧
        ∀ d ∈ ds, ∃ name kind, d = .variable name kind ∧ kinds.get? name = some kind := by
    intro ds
    induction ds with
    | nil =>
      intro first h
      cases h
      exact ⟨fun _ _ hk => hk, nofun⟩
    | cons d ds ih =>
      intro first h
      rw [List.foldlM_cons] at h
      cases hdeclare : first.declare d with
      | error e =>
        rw [hdeclare] at h
        cases h
      | ok next =>
        rw [hdeclare] at h
        obtain ⟨hkeeps, hrest⟩ := ih next h
        obtain ⟨hstays, name, kind, rfl, hkind⟩ := get?_of_declare hdeclare
        refine ⟨fun name kind hk => hkeeps name kind (hstays name kind hk), fun d' hd' => ?_⟩
        rcases List.mem_cons.mp hd' with rfl | hd'
        · exact ⟨name, kind, rfl, hkeeps name kind hkind⟩
        · exact hrest d' hd'
  exact (key ds [] h).2 d hd

end VariableKinds

namespace VariableKinds

variable {ds : List Declaration} {kinds : VariableKinds} {p : PathPattern}

/-- In a pattern that makes sense the variable of a place is of the kind of the place. -/
theorem kind_of_place (h : ofDeclarations ds = .ok kinds) (hp : p.declarations ⊆ ds) {l : Place}
    (hl : l ∈ p.places) {name : String} (hname : l.name? = some name) :
    kinds.get? name = some l.kind := by
  have declared {d : Declaration} (hd : d ∈ l.declaration) :
      ∃ name kind, d = .variable name kind ∧ kinds.get? name = some kind :=
    of_mem h (hp (PathPattern.mem_declarations hl hd))
  have hkind (hd : .variable name l.kind ∈ l.declaration) : kinds.get? name = some l.kind := by
    obtain ⟨_, _, heq, hget⟩ := declared hd
    cases heq
    exact hget
  cases l with
  | node f repeated => exact hkind (Filler.mem_declaration hname)
  | edge pattern repeated => exact hkind (Filler.mem_declaration hname)
  | group name' mode condition repeated =>
    cases hname
    cases repeated with
    | false => exact hkind (List.mem_singleton_self _)
    | true =>
      obtain ⟨_, _, heq, -⟩ := declared (List.mem_singleton_self _)
      cases heq

end VariableKinds

end GraphPatterns
