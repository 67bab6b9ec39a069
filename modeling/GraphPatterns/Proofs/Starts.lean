/-
Where a search starts. It leaves out vertices that its first node pattern could not match: those other
than the one that the variable of the node stands for, or those without the label of the node. Nothing
is lost by that, so the ways of a path pattern are its ways from all vertices, in order
(`PathPattern.ways_everywhere`).
-/
import GraphPatterns.Proofs.GraphScan
import GraphPatterns.Proofs.Ways

namespace GraphPatterns

theorem flatMap_filter_of {α β : Type} {xs : List α} {keep : α → Bool} {f : α → List β}
    (h : ∀ x ∈ xs, keep x = false → f x = []) : (xs.filter keep).flatMap f = xs.flatMap f := by
  induction xs with
  | nil => rfl
  | cons x xs ih =>
    have hrest := ih fun y hy => h y (List.mem_cons_of_mem _ hy)
    cases hkeep : keep x with
    | true => rw [List.filter_cons_of_pos hkeep, List.flatMap_cons, List.flatMap_cons, hrest]
    | false =>
      rw [List.filter_cons_of_neg (by simp [hkeep]), List.flatMap_cons, hrest,
        h x List.mem_cons_self hkeep, List.nil_append]

/-! ## The first node pattern -/

/-- Only a term that starts with a node pattern has code that does. -/
theorem term_of_leadingCode {factors : List Factor} {f : NodePattern} {code : List Inst}
    (h : termCode false factors ++ [.accept] = .node f false :: code) :
    ∃ rest, factors = .mk (.node f) none :: rest := by
  cases factors with
  | nil => cases h
  | cons factor rest =>
    obtain ⟨e, q⟩ := factor
    cases q with
    | some q => simp [termCode, Factor.code] at h
    | none =>
      cases e with
      | node f' =>
        simp only [termCode, Factor.code, Element.code, List.cons_append, List.cons.injEq,
          Inst.node.injEq] at h
        exact ⟨rest, by rw [h.1.1]⟩
      | edge pattern => simp [termCode, Factor.code, Element.code] at h
      | group name mode body condition => simp [termCode, Factor.code, Element.code] at h

/-- A choice of several terms does not start with a node pattern. -/
theorem choice_of_leadingCode {terms : List (List Factor)} {f : NodePattern} {code : List Inst}
    (h : choiceCode false terms ++ [.accept] = .node f false :: code) :
    ∃ rest, terms = [.mk (.node f) none :: rest] := by
  match terms with
  | [] => cases h
  | [t] =>
    simp only [choiceCode, List.isEmpty_nil, if_true] at h
    obtain ⟨rest, rfl⟩ := term_of_leadingCode h
    exact ⟨rest, rfl⟩
  | t :: t' :: rest => simp [choiceCode] at h

namespace PathPattern

/-- What starts with a node pattern is a term, perhaps as the only term of a choice. -/
theorem ways_of_leadingNode? {p : PathPattern} {f : NodePattern}
    (h : (Program.compile p).leadingNode? = some f) :
    ∃ rest, ∀ c s, p.expr.ways c s = termWays (.mk (.node f) none :: rest) c s := by
  change Program.firstNode? (p.expr.code false ++ [.accept]) = some f at h
  unfold Program.firstNode? at h
  split at h
  · next f' code hcode =>
    obtain rfl := Option.some.inj h
    have single {c : Surroundings} {s : Stage} (t : List Factor) : choiceWays [t] c s = termWays t c s := by
      rw [choiceWays, choiceWays, List.append_nil]
    cases hexpr : p.expr with
    | term factors =>
      rw [hexpr, PathExpr.code] at hcode
      obtain ⟨rest, rfl⟩ := term_of_leadingCode hcode
      exact ⟨rest, fun c s => by rw [PathExpr.ways]⟩
    | union terms =>
      rw [hexpr, PathExpr.code] at hcode
      obtain ⟨rest, rfl⟩ := choice_of_leadingCode hcode
      exact ⟨rest, fun c s => by rw [PathExpr.ways]; exact single _⟩
    | multiset terms =>
      rw [hexpr, PathExpr.code] at hcode
      obtain ⟨rest, rfl⟩ := choice_of_leadingCode hcode
      exact ⟨rest, fun c s => by rw [PathExpr.ways]; exact single _⟩
  · cases h

theorem ways_of_not_admits {p : PathPattern} {f : NodePattern}
    (h : (Program.compile p).leadingNode? = some f) {c : Surroundings} {s : Stage}
    (hs : c.admits s f (.vertex s.walk.current) = false) : p.expr.ways c s = [] := by
  obtain ⟨rest, hways⟩ := ways_of_leadingNode? h
  rw [hways, termWays, Factor.ways, Element.ways]
  simp [hs]

end PathPattern

/-! ## All vertices -/

/-- The ways of a path pattern from one vertex. -/
def PathPattern.waysFrom (p : PathPattern) (env : Env) (base : Bindings) (limit : Nat) (v : VertexId) :
    List Stage :=
  p.expr.ways ⟨env, p.modeInForce, [], false⟩ (.start v base limit)

section Everywhere

variable {g : Graph} {env : Env} {p : PathPattern} {f : NodePattern} {base : Bindings} {limit : Nat}

/-- A variable that stands for a vertex leads from this vertex only. -/
theorem PathPattern.waysFrom_bound (h : (Program.compile p).leadingNode? = some f) {b : Bound}
    (hb : (f.name.bind fun name => (base.get? name).or (env.seed.get? name)) = some b) {v : VertexId}
    (hne : b ≠ .vertex v) : p.waysFrom env base limit v = [] := by
  refine ways_of_not_admits h ?_
  have hagrees (taken : Option ElementId) : f.agrees env base false taken (.vertex v) = false := by
    rw [Filler.agrees, if_neg Bool.false_ne_true, hb]
    exact beq_false_of_ne hne
  change f.admits env base false _ (.vertex v) = false
  rw [Filler.admits, hagrees, Bool.false_and, Bool.false_and, Bool.false_and]

/-- A vertex without the label of the first node pattern leads nowhere. -/
theorem PathPattern.waysFrom_unlabelled (hg : g.Indexed) (hstore : env.store = g.store)
    (h : (Program.compile p).leadingNode? = some f) {label : String} (hlabel : f.label = some (.name label))
    {x : Vertex} (hx : x ∈ g.vertices) (hnone : x.hasLabel label = false) :
    p.waysFrom env base limit x.id = [] := by
  refine ways_of_not_admits h ?_
  have hlabels : env.store.labels? (.vertex x.id) = some x.labels := by
    rw [hstore]
    exact congrArg (Option.map _) (Graph.vertex?_of_mem hg.vertices hx)
  have hadmits : LabelExpr.admits (.name label) env.store (.vertex x.id) = false := by
    rw [LabelExpr.admits, hlabels]
    exact hnone
  change f.admits env base false _ (.vertex x.id) = false
  rw [Filler.admits, hlabel, Option.all_some, hadmits, Bool.and_false, Bool.false_and, Bool.false_and]

theorem Graph.filter_vertices_bound (hg : g.Indexed) (b : Bound) :
    b.asVertex?.toList.filter g.store.contains = g.store.vertices.filter fun v => b == .vertex v := by
  cases b with
  | vertex w =>
    have hsame : (fun v => Bound.vertex w == .vertex v) = (· == w) := by
      funext v
      rw [Bool.eq_iff_iff, beq_iff_eq, beq_iff_eq, Bound.vertex.injEq, eq_comm]
    rw [hsame, List.filter_beq]
    by_cases hw : w ∈ g.store.vertices
    · have hcontains : g.store.contains w = true := contains_iff.mpr hw
      have hcount : g.store.vertices.count w = 1 := List.count_eq_one_of_mem hg.vertices.nodup hw
      rw [hcount]
      simp [Bound.asVertex?, hcontains]
    · have hcontains : g.store.contains w = false := Bool.eq_false_iff.mpr (hw ∘ contains_iff.mp)
      rw [List.count_eq_zero_of_not_mem hw]
      simp [Bound.asVertex?, hcontains]
  | edge e => exact (List.filter_eq_nil_iff.mpr (by simp)).symm
  | group items => exact (List.filter_eq_nil_iff.mpr (by simp)).symm
  | path q => exact (List.filter_eq_nil_iff.mpr (by simp)).symm

/-- **A search starts everywhere.** The ways of a path pattern are its ways from all vertices of the
graph, although a search does not try all of them. -/
theorem PathPattern.ways_everywhere (hg : g.Indexed) (hstore : env.store = g.store) (p : PathPattern)
    (base : Bindings) (limit : Nat) :
    p.ways env base limit = g.store.vertices.flatMap (p.waysFrom env base limit) := by
  change (startVertices env (.compile p) base).flatMap (p.waysFrom env base limit) = _
  rw [startVertices, hstore]
  split
  · rfl
  · next f hf =>
    split
    · next b hb =>
      rw [Graph.filter_vertices_bound hg]
      exact flatMap_filter_of fun v _ hv => waysFrom_bound hf hb (ne_of_beq_false hv)
    · split
      · next label hlabel =>
        rw [Graph.withLabel_eq_scan hg.vertices, scanLabel]
        change _ = (g.vertices.map (·.id)).flatMap _
        rw [List.flatMap_map, List.flatMap_map]
        exact flatMap_filter_of fun x hx hnone => waysFrom_unlabelled hg hstore hf hlabel hx hnone
      · rfl

end Everywhere

end GraphPatterns
