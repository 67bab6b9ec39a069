/-
What is repeated in a pattern, as validation and the code have it. Validation declares an element as
repeated if there is a quantifier on it or around it; the code of what a quantifier stands on is made for
groups, however deep it goes. So both have the same variables for groups (`PathPattern.groupVariables_eq`)
and take the same elements for repeated: those at addresses under quantifiers
(`PathExpr.Has.isUnderQuantifier_iff`, `GraphPattern.grouped_elements`).
-/
import GraphPatterns.Graph.Basic
import GraphPatterns.Proofs.Declared

namespace GraphPatterns

/-! ## Variables for groups -/

namespace VariableKinds

variable {kinds later : VariableKinds} {name : String} {kind : VariableKind}

theorem get?_groups (h : kinds.get? name = some kind) (hgroup : kind.isGroup = true) :
    kinds.groups.get? name = some kind := by
  induction kinds with
  | nil => cases h
  | cons first kinds ih =>
    obtain ⟨own, ownKind⟩ := first
    rw [Assoc.get?] at h
    split at h
    · next heq =>
      cases h
      rw [groups, List.filter_cons, if_pos hgroup, Assoc.get?, if_pos heq]
    · next hne =>
      rw [groups, List.filter_cons]
      split
      · rw [Assoc.get?, if_neg hne]
        exact ih h
      · exact ih h

theorem get?_groups_eq_none (h : kinds.get? name = none) : kinds.groups.get? name = none := by
  rw [Assoc.get?_eq_none_iff] at h ⊢
  exact fun hname => h ((List.filter_sublist.map _).subset hname)

end VariableKinds

/-- The variable of a declaration, if it stands for a list. -/
def Declaration.groupVariable? : Declaration → Option (String × VariableKind)
  | .variable name kind => if kind.isGroup then some (name, kind) else none
  | .repeatedPath _ => none

namespace VariableKinds

variable {kinds later : VariableKinds}

/-- Entering a declaration enters its variable among those for groups if it is one of them. -/
theorem groups_declare {d : Declaration} (h : kinds.declare d = .ok later) :
    later.groups = d.groupVariable?.toList.foldl (fun m v => m.insertNew v.1 v.2) kinds.groups := by
  match d with
  | .repeatedPath name => cases h
  | .variable name kind =>
    rw [declare] at h
    cases hfirst : kinds.get? name with
    | none =>
      rw [hfirst] at h
      cases h
      rw [Assoc.insert_of_get?_none hfirst, groups, List.filter_append, Declaration.groupVariable?]
      cases hgroup : kind.isGroup with
      | false => simp [hgroup, groups]
      | true =>
        have hnew := Assoc.insertNew_of_get?_none (get?_groups_eq_none hfirst) kind
        simpa [hgroup, groups] using hnew.symm
    | some first =>
      simp only [hfirst] at h
      split at h
      · next heq =>
        cases h
        subst heq
        rw [Declaration.groupVariable?]
        split
        · next hgroup => exact (Assoc.insertNew_of_get? (get?_groups hfirst hgroup) first).symm
        · rfl
      · cases h

theorem groups_ofDeclarations {ds : List Declaration} (h : ofDeclarations ds = .ok kinds) :
    kinds.groups = (ds.filterMap Declaration.groupVariable?).foldl
      (fun (m : VariableKinds) v => m.insertNew v.1 v.2) [] := by
  have key : ∀ (ds : List Declaration) (first : VariableKinds), ds.foldlM declare first = .ok kinds →
      kinds.groups = (ds.filterMap Declaration.groupVariable?).foldl
        (fun (m : VariableKinds) v => m.insertNew v.1 v.2) first.groups := by
    intro ds
    induction ds with
    | nil =>
      intro first h
      cases h
      rfl
    | cons d ds ih =>
      intro first h
      rw [List.foldlM_cons, Except.bind_eq_ok_iff] at h
      obtain ⟨next, hdeclare, h⟩ := h
      rw [ih next h, groups_declare hdeclare, ← List.foldl_append, List.filterMap_cons]
      cases d.groupVariable? <;> rfl
  exact key ds [] h

end VariableKinds

/-- A place declares a variable for groups where the code binds one. -/
theorem Place.groupVariables_declaration (l : Place) :
    l.declaration.filterMap Declaration.groupVariable? = l.groupVariable?.toList := by
  cases l with
  | node f repeated =>
    rw [declaration, Filler.declaration]
    cases hname : f.name <;> cases repeated <;> simp [groupVariable?, hname,
      Declaration.groupVariable?, VariableKind.underQuantifier, VariableKind.grouped,
      VariableKind.isGroup]
  | edge pattern repeated =>
    rw [declaration, Filler.declaration]
    cases hname : pattern.filler.name <;> cases repeated <;> simp [groupVariable?, hname,
      Declaration.groupVariable?, VariableKind.underQuantifier, VariableKind.grouped,
      VariableKind.isGroup]
  | group name mode condition repeated =>
    cases name with
    | none => rfl
    | some name => cases repeated <;> rfl

/-- A path pattern declares variables for groups where its places bind them. -/
theorem PathPattern.groupVariables_declarations (p : PathPattern) :
    p.declarations.filterMap Declaration.groupVariable? = p.places.filterMap Place.groupVariable? := by
  have hplaces : (p.expr.declarations false).filterMap Declaration.groupVariable? =
      p.places.filterMap Place.groupVariable? := by
    rw [p.expr.declarations_eq, List.filterMap_flatMap]
    simp only [Place.groupVariables_declaration]
    exact (List.filterMap_eq_flatMap_toList ..).symm
  -- The variable of the path pattern itself stands for a path.
  rw [declarations, List.filterMap_append, hplaces]
  cases p.name <;> rfl

/-- **The variables that the code binds to groups are those that validation finds to be groups**, with
their kinds and in the order of the declarations. -/
theorem PathPattern.groupVariables_eq {p : PathPattern} {kinds : VariableKinds}
    (h : VariableKinds.ofDeclarations p.declarations = .ok kinds) :
    (Program.compile p).groupVariables = kinds.groups := by
  rw [p.groupVariables_compile, VariableKinds.groups_ofDeclarations h, p.groupVariables_declarations]

/-! ## Elements under quantifiers -/

/-- There is a quantifier over an address: on the factor there, or on a group around it. -/
def PathExpr.IsUnderQuantifier (x : PathExpr) (address : List Nat) : Prop :=
  ∃ outer repeated e q, outer <+: address ∧ x.Has outer repeated (.mk e (some q))

namespace PathExpr.Has

variable {x body : PathExpr} {t : Term} {e : Element} {q : Option Quantifier} {i j : Nat}
  {address address' : List Nat} {repeated : Bool} {f : Factor}

theorem of_prefix (ht : x.terms[i]? = some t) (hf : t[j]? = some (.mk e q))
    (h : x.Has address repeated f) (hbegin : address <+: i :: j :: address') :
    address = [i, j] ∧ f = .mk e q ∨ ∃ body inner repeated', e.body? = some body ∧
      address = i :: j :: inner ∧ inner <+: address' ∧ body.Has inner repeated' f := by
  cases h with
  | here ht' hf' =>
    simp only [List.cons_prefix_cons] at hbegin
    obtain ⟨rfl, rfl, -⟩ := hbegin
    obtain rfl := Option.some.inj (ht.symm.trans ht')
    exact .inl ⟨rfl, Option.some.inj (hf'.symm.trans hf)⟩
  | inside ht' hf' hbody hinner =>
    simp only [List.cons_prefix_cons] at hbegin
    obtain ⟨rfl, rfl, hrest⟩ := hbegin
    obtain rfl := Option.some.inj (ht.symm.trans ht')
    cases Option.some.inj (hf'.symm.trans hf)
    exact .inr ⟨_, _, _, hbody, rfl, hrest, hinner⟩

/-- **A factor counts as repeated if there is a quantifier over its address**, and only then. -/
theorem isUnderQuantifier_iff (h : x.Has address repeated f) :
    repeated = true ↔ x.IsUnderQuantifier address := by
  induction h with
  | @here x i j t e q ht hf =>
    constructor
    · intro hq
      obtain ⟨own, rfl⟩ := Option.isSome_iff_exists.mp hq
      exact ⟨_, _, e, own, List.prefix_rfl, .here ht hf⟩
    · rintro ⟨outer, _, e', own, hbegin, houter⟩
      rcases of_prefix ht hf houter hbegin with ⟨-, hsame⟩ | ⟨_, _, _, -, rfl, hinner, hbody⟩
      · cases hsame
        rfl
      · rw [List.prefix_nil.mp hinner] at hbody
        cases hbody
  | @inside x body i j t e q inner repeated f ht hf hbody h ih =>
    rw [Bool.or_eq_true, ih]
    constructor
    · rintro (hq | ⟨outer, _, e', own, hbegin, houter⟩)
      · obtain ⟨own, rfl⟩ := Option.isSome_iff_exists.mp hq
        exact ⟨_, _, e, own, ⟨inner, rfl⟩, .here ht hf⟩
      · refine ⟨_, _, e', own, ?_, .inside ht hf hbody houter⟩
        exact List.cons_prefix_cons.mpr ⟨rfl, List.cons_prefix_cons.mpr ⟨rfl, hbegin⟩⟩
    · rintro ⟨outer, _, e', own, hbegin, houter⟩
      rcases of_prefix ht hf houter hbegin with ⟨-, hsame⟩ | ⟨_, _, _, hbody', rfl, hinner, houter⟩
      · cases hsame
        exact .inl rfl
      · obtain rfl := Option.some.inj (hbody.symm.trans hbody')
        exact .inr ⟨_, _, e', own, hinner, houter⟩

end PathExpr.Has

/-! ## Code and kinds -/

/-- Whether there is a quantifier around a place. -/
def Place.isRepeated : Place → Bool
  | .node _ repeated | .edge _ repeated | .group _ _ _ repeated => repeated

@[simp] theorem Element.isRepeated_place (e : Element) (repeated : Bool) :
    (e.place repeated).isRepeated = repeated := by cases e <;> rfl

theorem Place.isGroup_kind_eq {l : Place} (h : l.isElement = true) : l.kind.isGroup = l.isRepeated := by
  cases l with
  | node f repeated => cases repeated <;> rfl
  | edge pattern repeated => cases repeated <;> rfl
  | group => cases h

/-- A list of the nodes and edges that stand in a pattern: each at its address, in the order of the
addresses. -/
structure PathExpr.HasElements (x : PathExpr) (elements : List (Located Place)) : Prop where
  sorted : elements.Pairwise Located.Before
  mem_iff : ∀ address l, ⟨address, l⟩ ∈ elements ↔
    l.isElement = true ∧ ∃ repeated e q, x.Has address repeated (.mk e q) ∧ l = e.place repeated

/-- The nodes and edges of a pattern with their addresses. -/
def PathExpr.elements (x : PathExpr) : List (Located Place) :=
  (x.located.map fun l => ⟨l.address, l.item.factor.element.place l.item.repeated⟩).filter
    (·.item.isElement)

theorem PathExpr.hasElements (x : PathExpr) : x.HasElements x.elements where
  sorted := by
    refine List.Pairwise.filter _ (List.pairwise_map.mpr (x.sorted_located.imp ?_))
    exact fun h => h
  mem_iff address l := by
    rw [elements, List.mem_filter, List.mem_map, and_comm]
    refine and_congr_right fun _ => ⟨?_, ?_⟩
    · rintro ⟨⟨own, repeated, ⟨e, q⟩⟩, ho, heq⟩
      cases heq
      exact ⟨repeated, e, q, (x.mem_located_iff _).mp ho, rfl⟩
    · rintro ⟨repeated, e, q, h, rfl⟩
      exact ⟨⟨address, repeated, .mk e q⟩, (x.mem_located_iff _).mpr h, rfl⟩

/-- The code has one instruction for each node and each edge, in the order of the addresses. -/
theorem PathPattern.code_elements (p : PathPattern) :
    (Program.compile p).code.filterMap Inst.place? = p.expr.elements.map (·.item) := by
  have hplaces : p.expr.places false =
      p.expr.located.map fun l => l.item.factor.element.place l.item.repeated := by
    rw [p.expr.places_located false, List.map_eq_flatMap]
    rfl
  rw [Program.compile, List.filterMap_append, p.expr.code_places, hplaces, PathExpr.elements, List.filter_map,
    List.filter_map, List.map_map]
  exact List.append_nil _

/-- **The code and the validation of a pattern agree on what is repeated.** If the pattern makes sense,
the code binds the variables to groups that are of kinds for groups. It has one instruction for each node
and each edge; that is made for groups just if there is a quantifier over the element, and just if the
variable of the element, if it has one, is of a kind for groups. -/
theorem GraphPattern.grouped_elements {g : GraphPattern} {p : PathPattern} {store : Store} {strict : Bool}
    {bound kinds : VariableKinds} (hp : g.paths = [p]) (h : g.validate store strict bound = .ok kinds) :
    (Program.compile p).groupVariables = kinds.groups ∧
      ∃ elements, p.expr.HasElements elements ∧
        (Program.compile p).code.filterMap Inst.place? = elements.map (·.item) ∧
        ∀ l ∈ elements, (l.item.isRepeated = true ↔ p.expr.IsUnderQuantifier l.address) ∧
          ∀ name, l.item.name? = some name → ∃ kind, kinds.get? name = some kind ∧
            (l.item.isRepeated = true ↔ kind.isGroup = true) := by
  have hkinds := g.kind_of_validate h
  rw [hp, List.flatMap_singleton] at hkinds
  refine ⟨PathPattern.groupVariables_eq hkinds, p.expr.elements, p.expr.hasElements, p.code_elements,
    fun ⟨address, l⟩ hl => ?_⟩
  obtain ⟨helement, repeated, e, q, hhas, hplace⟩ := (p.expr.hasElements.mem_iff address l).mp hl
  refine ⟨?_, fun name hname => ⟨l.kind, ?_, ?_⟩⟩
  · rw [hplace, Element.isRepeated_place]
    exact hhas.isUnderQuantifier_iff
  · refine VariableKinds.kind_of_place hkinds (List.Subset.refl _) ?_ hname
    rw [PathPattern.places, p.expr.places_located false, List.mem_flatMap]
    exact ⟨_, (p.expr.mem_located_iff ⟨address, repeated, .mk e q⟩).mpr hhas,
      List.mem_singleton.mpr hplace⟩
  · rw [Place.isGroup_kind_eq helement]

/-- A vertex, followed by two or three walks over any number of edges, or by nothing. -/
def PathPattern.repeatedWalks : PathPattern :=
  let start : Factor := .mk (.node { name := some "a" }) none
  let edge : Element := .edge { filler := { name := some "e" }, direction := .right }
  let walk : Element := .group none none
    (.term [.mk (.node {}) none, .mk edge (some .zeroOrMore), .mk (.node { name := some "b" }) none]) none
  { expr := .union [[start, .mk walk (some (.between 2 3))], [start]] }

/-- Of the vertex there is one, of the edges and of the ends of the walks there are lists. -/
theorem grouped_elements_walks :
    let p := PathPattern.repeatedWalks
    let g : GraphPattern := { paths := [p] }
    let kinds : VariableKinds := [("a", .node), ("e", .edgeGroup), ("b", .nodeGroup)]
    g.paths = [p] ∧ g.validate Graph.empty.store true [] = .ok kinds ∧
      (Program.compile p).groupVariables = [("e", .edgeGroup), ("b", .nodeGroup)] ∧
      ∃ elements, p.expr.HasElements elements ∧
        elements.map (·.item.isRepeated) = [false, true, true, true, false] ∧
        ∀ l ∈ elements, (l.item.isRepeated = true ↔ p.expr.IsUnderQuantifier l.address) ∧
          ∀ name, l.item.name? = some name → ∃ kind, kinds.get? name = some kind ∧
            (l.item.isRepeated = true ↔ kind.isGroup = true) := by
  intro p g kinds
  have hvalid : g.validate Graph.empty.store true [] = .ok kinds := rfl
  obtain ⟨hgroups, elements, hlist, hcode, hagree⟩ := g.grouped_elements (p := p) rfl hvalid
  refine ⟨rfl, hvalid, hgroups.trans rfl, elements, hlist, ?_, hagree⟩
  have hitems := congrArg (List.map Place.isRepeated) hcode
  rw [List.map_map] at hitems
  exact hitems.symm.trans rfl

end GraphPatterns
