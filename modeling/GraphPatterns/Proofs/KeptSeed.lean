/-
What was bound before a match is not altered. All that a match binds agrees with its seed, so a match is
its seed with further names after it (`GraphPattern.matches_extend_seed`).
-/
import GraphPatterns.Proofs.Seeded

namespace GraphPatterns

namespace Bindings

variable {seed own : Bindings}

theorem combine_of_agrees (hnodup : own.keys.Nodup) (h : seed.Agrees own) :
    Join.combine seed own = seed.extendedBy own := by
  induction own generalizing seed with
  | nil => exact (List.append_nil seed).symm
  | cons b own ih =>
    have hnew : b.1 ∉ Assoc.keys own := (List.nodup_cons.mp hnodup).1
    have hnodup : (Assoc.keys own).Nodup := (List.nodup_cons.mp hnodup).2
    have hrest : seed.Agrees own := fun a ha => h a (List.mem_cons_of_mem _ ha)
    have hstep : Join.combine seed (b :: own) = Join.combine (seed.insert b.1 b.2) own := rfl
    rw [hstep]
    cases hthere : seed.get? b.1 with
    | some there =>
      have hsame : seed.insert b.1 b.2 = seed := by
        rw [h b List.mem_cons_self there hthere]
        exact Assoc.insert_of_get? hthere
      have hskip : (!seed.has b.1) = false := by simp [Assoc.has, hthere]
      rw [hsame, ih hnodup hrest, extendedBy, extendedBy, List.filter_cons, hskip]
      rfl
    | none =>
      have hadd : seed.insert b.1 b.2 = seed ++ [b] := Assoc.insert_of_get?_none hthere b.2
      have hkeep : (!seed.has b.1) = true := by simp [Assoc.has, hthere]
      have hother {a : String × Bound} (ha : a ∈ own) :
          Assoc.get? (seed ++ [b]) a.1 = seed.get? a.1 := by
        have hkey : a.1 ∈ Assoc.keys own := List.mem_map_of_mem ha
        have hne : b.1 ≠ a.1 := fun heq => hnew (heq ▸ hkey)
        rw [Assoc.get?_append]
        simp [Assoc.get?, hne]
      have hagrees : Agrees (seed ++ [b]) own := fun a ha there hget =>
        hrest a ha there (hother ha ▸ hget)
      have hfilter : (own.filter fun a => !Assoc.has (seed ++ [b]) a.1) =
          own.filter fun a => !seed.has a.1 := by
        refine List.filter_congr fun a ha => ?_
        rw [Assoc.has, hother ha]
        rfl
      rw [hadd, ih hnodup hagrees, extendedBy, hfilter, extendedBy, List.filter_cons, hkeep]
      simp

end Bindings

/-! ## Solutions -/

section Solutions

variable {env : Env}

theorem Chain.seed_agrees {g : Graph} (hg : g.Indexed) (hstore : env.store = g.store)
    (hmax : env.config.maxSteps = none) {ps : List PathPattern} {base last : Bindings}
    {xs : List Solution} (hchain : Chain env ps base xs last) (hnodup : base.keys.Nodup)
    (h : env.seed.Agrees base) : env.seed.Agrees last := by
  induction hchain with
  | nil => exact h
  | cons hx _ ih =>
    have hmatched := Program.mem_matched hg hstore hmax hx
    exact ih ((PathPattern.growsTo_matched hmatched).nodup hnodup)
      (PathPattern.seed_agrees_matched hnodup h hmatched)

end Solutions

/-- **What was bound before a match is not altered.** The bindings of a match are those of its seed, in
their order and with their values, and after them bindings of other names. -/
theorem GraphPattern.matches_extend_seed (p : GraphPattern) (g : Graph) (config : MatchConfig)
    (seed : Bindings) {found : List Match} (hg : g.Built)
    (h : (p.matches ⟨g.store, config, seed⟩).map (·.1) = .ok found) :
    ∀ m ∈ found, (∃ own, m.bindings = seed ++ own ∧ ∀ b ∈ own, seed.has b.1 = false) ∧
      ∀ name b, seed.get? name = some b → m.bindings.get? name = some b := by
  obtain ⟨-, hfound⟩ := mem_matches h
  intro m hm
  obtain ⟨xs, last, hchain, rfl, -⟩ := hfound m hm
  have hnodup : last.keys.Nodup := (hchain.growsTo hg.indexed rfl rfl).nodup List.nodup_nil
  have hagrees : seed.Agrees last :=
    hchain.seed_agrees hg.indexed rfl rfl List.nodup_nil (Bindings.agrees_nil seed)
  have hcombine := Bindings.combine_of_agrees hnodup hagrees
  refine ⟨⟨last.filter fun b => !seed.has b.1, hcombine, fun b hb => ?_⟩, fun name b hname => ?_⟩
  · simpa using (List.mem_filter.mp hb).2
  · change (Join.combine seed last).get? name = some b
    rw [hcombine, Bindings.get?_extendedBy, hname]
    rfl

/-- A path over an edge with a variable for the path and for its ends. -/
def PathPattern.namedHop : PathPattern :=
  { name := some "p"
    expr := .term [.mk (.node { name := some "a" }) none, .mk (.edge { direction := .right }) none,
      .mk (.node { name := some "b" }) none] }

/-- With the path and one of its ends in the seed only the other end is bound anew. -/
theorem matches_extend_seed_hop :
    let config : MatchConfig := { maxPathLength := 1 }
    let path : Path := ⟨[⟨1⟩, ⟨2⟩], [⟨1⟩]⟩
    let seed : Bindings := [("q", .group []), ("p", .path path), ("b", .vertex ⟨2⟩)]
    let m : Match := ⟨seed ++ [("a", .vertex ⟨1⟩)], [path]⟩
    Graph.hop.Built ∧
      (PathPattern.namedHop.toGraphPattern.matches ⟨Graph.hop.store, config, seed⟩).map (·.1) = .ok [m] ∧
      (∃ own, m.bindings = seed ++ own ∧ ∀ b ∈ own, seed.has b.1 = false) ∧
      ∀ name b, seed.get? name = some b → m.bindings.get? name = some b := by
  intro config path seed m
  have hmatches : (PathPattern.namedHop.toGraphPattern.matches
      ⟨Graph.hop.store, config, seed⟩).map (·.1) = .ok [m] := by
    have hways : PathPattern.namedHop.ways ⟨Graph.hop.store, config, seed⟩ [] 1 =
        [⟨⟨⟨1⟩, [(⟨1⟩, ⟨2⟩)]⟩, [("a", .vertex ⟨1⟩), ("b", .vertex ⟨2⟩)], [], 0⟩] := rfl
    have hmatches := PathPattern.namedHop.matches_ways ⟨Graph.hop.store, config, seed⟩ rfl rfl
    rw [show config.maxPathLength = 1 from rfl, hways] at hmatches
    exact hmatches
  exact ⟨Graph.built_hop, hmatches, PathPattern.namedHop.toGraphPattern.matches_extend_seed Graph.hop config
    seed Graph.built_hop hmatches m (List.mem_singleton_self m)⟩

end GraphPatterns
