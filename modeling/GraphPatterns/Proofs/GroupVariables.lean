/-
What group variables are bound to. Each repetition adds its element at the end of the group, and a
path pattern that declares a variable which an earlier one has bound goes on with the group that is
there (`collects_moves`). What is added is what the variable takes on the passage (`collecting_strides`).
So a match binds a group variable to the elements that it has taken on the passages of the path
patterns, one list after the other (`GraphPattern.matches_groups`), and these lists need not be the
same (`matches_groups_appended`).
-/
import GraphPatterns.Proofs.Lookup
import GraphPatterns.Proofs.Validity

namespace GraphPatterns

/-! ## Elements of a walk -/

namespace Walk

theorem elements_toPath (w : Walk) : w.toPath.elements =
    .vertex w.start :: w.steps.flatMap fun step => [.edge step.1, .vertex step.2] := by
  obtain ⟨start, steps⟩ := w
  induction steps generalizing start with
  | nil => rfl
  | cons step steps ih =>
    have hrest := ih step.2
    simp only [toPath, vertices, edges, Path.elements] at hrest ⊢
    simp only [List.map_cons, Path.interleave, List.flatMap_cons, List.cons_append, List.nil_append]
    rw [hrest]

@[simp] theorem elements_extend (w : Walk) (e : EdgeId) (v : VertexId) :
    (w.extend e v).toPath.elements = w.toPath.elements ++ [.edge e, .vertex v] := by
  simp [elements_toPath, extend]

@[simp] theorem length_elements (w : Walk) : w.toPath.elements.length = 2 * w.length + 1 := by
  obtain ⟨start, steps⟩ := w
  induction steps using List.reverseRecOn with
  | nil => rfl
  | append_singleton steps step ih =>
    have hlast := elements_extend ⟨start, steps⟩ step.1 step.2
    simp only [extend] at hlast
    simp only [hlast, List.length_append, ih, length, List.length_cons, List.length_nil]
    omega

theorem elements_last (w : Walk) : w.toPath.elements[2 * w.length]? = some (.vertex w.current) := by
  obtain ⟨start, steps⟩ := w
  induction steps using List.reverseRecOn with
  | nil => rfl
  | append_singleton steps step _ =>
    have hlast := elements_extend ⟨start, steps⟩ step.1 step.2
    have hlength := length_elements ⟨start, steps⟩
    simp only [extend] at hlast
    rw [hlast]
    have hplace : 2 * length ⟨start, steps ++ [step]⟩ = (toPath ⟨start, steps⟩).elements.length + 1 := by
      rw [hlength]
      simp only [length, List.length_append, List.length_singleton]
      omega
    rw [hplace]
    simp [current]

end Walk

/-- A list goes along a path, from one place in it to another: it is made of elements of the path in
their order, each any number of times. -/
def Path.Passes (p : Path) (first last : Nat) (xs : List ElementId) : Prop :=
  ∃ places : List Nat, places.Pairwise (· ≤ ·) ∧ (∀ n ∈ places, first ≤ n ∧ n ≤ last) ∧
    places.map (p.elements[·]?) = xs.map some

namespace Path

variable {p p' : Path} {first middle last : Nat} {xs ys : List ElementId}

theorem passes_nil (p : Path) (first last : Nat) : p.Passes first last [] := ⟨[], .nil, nofun, rfl⟩

theorem passes_singleton {n : Nat} {x : ElementId} (hx : p.elements[n]? = some x) (hfirst : first ≤ n)
    (hlast : n ≤ last) : p.Passes first last [x] :=
  ⟨[n], List.pairwise_singleton .., by simp [hfirst, hlast], by simp [hx]⟩

theorem Passes.append (hxs : p.Passes first middle xs) (hys : p'.Passes middle last ys)
    (hfirst : first ≤ middle) (hlast : middle ≤ last) (hp : p.elements <+: p'.elements)
    (hmiddle : middle < p.elements.length) : p'.Passes first last (xs ++ ys) := by
  obtain ⟨ns, hsorted, hrange, hns⟩ := hxs
  obtain ⟨ms, hsorted', hrange', hms⟩ := hys
  refine ⟨ns ++ ms, List.pairwise_append.mpr ⟨hsorted, hsorted', fun n hn m hm => ?_⟩, fun n hn => ?_, ?_⟩
  · exact (hrange n hn).2.trans (hrange' m hm).1
  · rcases List.mem_append.mp hn with hn | hn
    · exact ⟨(hrange n hn).1, (hrange n hn).2.trans hlast⟩
    · exact ⟨hfirst.trans (hrange' n hn).1, (hrange' n hn).2⟩
  · rw [List.map_append, List.map_append, hms, ← hns]
    congr 1
    refine List.map_congr_left fun n hn => ?_
    have hlt : n < p.elements.length := Nat.lt_of_le_of_lt (hrange n hn).2 hmiddle
    obtain ⟨more, hmore⟩ := hp
    rw [← hmore, List.getElem?_append_left hlt]

end Path

/-! ## Collecting -/

/-- A name stands for a group. Nothing has been collected for a name that is not bound. -/
def Bindings.HoldsGroup (bindings : Bindings) (name : String) (xs : List ElementId) : Prop :=
  bindings.get? name = some (.group xs) ∨ bindings.get? name = none ∧ xs = []

namespace Bindings

variable {bindings : Bindings} {name : String} {xs : List ElementId}

theorem HoldsGroup.insert (h : bindings.HoldsGroup name xs) {other : String} (hne : other ≠ name)
    (b : Bound) : HoldsGroup (bindings.insert other b) name xs := by
  rw [HoldsGroup, Assoc.get?_insert, if_neg hne]
  exact h

theorem HoldsGroup.insertNew (h : bindings.HoldsGroup name xs) {other : String} (hne : other ≠ name)
    (b : Bound) : HoldsGroup (bindings.insertNew other b) name xs := by
  rw [HoldsGroup, Assoc.get?_insertNew, if_neg fun hk => hne hk.2]
  exact h

theorem HoldsGroup.collect (h : bindings.HoldsGroup name xs) (x : ElementId) :
    (Thread.collect bindings name x).get? name = some (.group (xs ++ [x])) := by
  rcases h with h | ⟨h, rfl⟩ <;> simp [Thread.collect, h, Assoc.get?_insert]

theorem HoldsGroup.collect_of_ne (h : bindings.HoldsGroup name xs) {other : String} (hne : other ≠ name)
    (x : ElementId) : (Thread.collect bindings other x).HoldsGroup name xs := by
  unfold Thread.collect
  split
  · exact h.insert hne _
  · exact h.insert hne _
  · exact h

theorem HoldsGroup.of_mem_keys (h : bindings.HoldsGroup name xs) (hname : name ∈ bindings.keys) :
    bindings.get? name = some (.group xs) :=
  h.resolve_right fun hnone => Assoc.get?_eq_none_iff.mp hnone.1 hname

theorem get?_bindPath? {seed later : Bindings} {other : String} {p : Path}
    (hbound : bindings.bindPath? seed other p = some later) (hne : other ≠ name) :
    later.get? name = bindings.get? name := by
  unfold bindPath? at hbound
  split at hbound
  · split at hbound
    · cases hbound
      rfl
    · cases hbound
  · cases hbound
    rw [Assoc.get?_insert, if_neg hne]

theorem HoldsGroup.unique {ys : List ElementId} (hxs : bindings.HoldsGroup name xs)
    (hys : bindings.HoldsGroup name ys) : xs = ys := by
  rcases hxs with hxs | ⟨hxs, rfl⟩ <;> rcases hys with hys | ⟨hys, rfl⟩
  · cases hxs.symm.trans hys
    rfl
  · cases hxs.symm.trans hys
  · cases hxs.symm.trans hys
  · rfl

theorem HoldsGroup.closeGroup? (h : bindings.HoldsGroup name xs) {env : Env} {later : Bindings} {sub : Path}
    {own : Option String} {condition : Option Expr} {grouped : Bool}
    (hclose : Thread.closeGroup? env bindings sub own condition grouped = some later)
    (hne : own ≠ some name) : later.HoldsGroup name xs := by
  have hbound := Option.eq_some_of_filter_eq_some hclose
  cases own with
  | none =>
    cases hbound
    exact h
  | some own =>
    rwa [HoldsGroup, get?_bindPath? hbound fun heq => hne (congrArg some heq)]

end Bindings

/-- Only elements under quantifiers have the variable. -/
def Place.Collects (name : String) (l : Place) : Prop := l.name? = some name → l.groupVariable?.isSome

theorem Stage.holdsGroup_taking {s : Stage} {name : String} {xs : List ElementId}
    (h : s.bindings.HoldsGroup name xs) {own : Option String} {repeated : Bool}
    (hown : own = some name → repeated = true) (x : ElementId) :
    (s.bind own repeated x).bindings.HoldsGroup name
      (xs ++ Passage.elements name (s.taking own repeated x)) := by
  cases own with
  | none => simpa [bind, taking] using h
  | some own =>
    by_cases hne : own = name
    · subst hne
      rw [hown rfl]
      cases htaken : s.takenBy? (some own) with
      | none =>
        have hgroup : (Thread.collect s.bindings own x).HoldsGroup own (xs ++ [x]) := .inl (h.collect x)
        simpa [bind, taking, htaken, Passage.elements] using hgroup
      | some y => simpa [bind, taking, htaken] using h
    · have hnone : Passage.elements name (s.taking (some own) repeated x) = [] :=
        (s.elements_taking name (some own) repeated x).resolve_right
          fun hown => hne (Option.some.inj hown.1)
      rw [hnone, List.append_nil]
      unfold bind
      dsimp only
      split
      · exact h.insertNew hne _
      · split
        · exact h
        · exact h.collect_of_ne hne x

theorem Stage.holdsGroup_bind {s : Stage} {name : String} {xs : List ElementId}
    (h : s.bindings.HoldsGroup name xs) {own : Option String} {repeated : Bool}
    (hown : own = some name → repeated = true) (x : ElementId) :
    (s.bind own repeated x).bindings.HoldsGroup name xs ∨
      own = some name ∧ (s.bind own repeated x).bindings.HoldsGroup name (xs ++ [x]) := by
  have hbound := holdsGroup_taking h hown x
  rcases s.elements_taking name own repeated x with hnone | ⟨hname, hone⟩
  · exact .inl (by simpa [hnone] using hbound)
  · exact .inr ⟨hname, by simpa [hone] using hbound⟩

/-- The walk goes on, and the group of a name is added to along what is walked. Where no place has the
name, nothing is added. -/
structure Collects (name : String) (places : List Place) (s u : Stage) : Prop where
  walk : s.walk.toPath.elements <+: u.walk.toPath.elements
  group : ∀ xs, s.bindings.HoldsGroup name xs → ∃ ys, u.bindings.HoldsGroup name (xs ++ ys) ∧
    u.walk.toPath.Passes (2 * s.walk.length) (2 * u.walk.length) ys ∧
    ((∀ l ∈ places, l.name? ≠ some name) → ys = [])

namespace Place.Collects

variable {name : String} {repeated : Bool}

theorem node {f : NodePattern} (h : (Place.node f repeated).Collects name) (hname : f.name = some name) :
    repeated = true := by
  cases repeated with
  | false => cases h hname
  | true => rfl

theorem edge {pattern : EdgePattern} (h : (Place.edge pattern repeated).Collects name)
    (hname : pattern.filler.name = some name) : repeated = true := by
  cases repeated with
  | false => cases h hname
  | true => rfl

theorem group {own : Option String} {mode : PathMode} {condition : Option Expr}
    (h : (Place.group own mode condition repeated).Collects name) : own ≠ some name := fun hname => by
  cases h hname

end Place.Collects

theorem Collects.bind {name : String} {places : List Place} {s t : Stage}
    (hbindings : t.bindings = s.bindings)
    (hwalk : s.walk.toPath.elements <+: t.walk.toPath.elements) {own : Option String} {repeated : Bool}
    (hown : own = some name → repeated = true ∧ ∃ l ∈ places, l.name? = some name) {x : ElementId}
    {n : Nat}
    (hx : t.walk.toPath.elements[n]? = some x) (hfirst : 2 * s.walk.length ≤ n)
    (hlast : n ≤ 2 * t.walk.length) : Collects name places s (t.bind own repeated x) where
  walk := by rwa [Stage.walk_bind]
  group xs h := by
    rw [Stage.walk_bind]
    rcases Stage.holdsGroup_bind (hbindings ▸ h) (fun hname => (hown hname).1) x with
      hsame | ⟨hname, hmore⟩
    · exact ⟨[], by simpa using hsame, Path.passes_nil .., fun _ => rfl⟩
    · refine ⟨[x], hmore, Path.passes_singleton hx hfirst hlast, fun hnone => ?_⟩
      obtain ⟨l, hl, hl'⟩ := (hown hname).2
      exact absurd hl' (hnone l hl)

/-- **Every move adds to a group along its walk.** -/
theorem collects_moves {name : String} {places : List Place} (hname : ∀ l ∈ places, l.Collects name) :
    Moves places fun _ => Collects name places where
  refl _ s := ⟨List.prefix_rfl, fun xs h => ⟨[], by simpa using h, Path.passes_nil .., fun _ => rfl⟩⟩
  trans {_ s u v} h₁ h₂ := by
    have length_le {w w' : Walk} (h : w.toPath.elements <+: w'.toPath.elements) :
        w.length ≤ w'.length := by
      have := h.length_le
      simp only [Walk.length_elements] at this
      omega
    refine ⟨h₁.walk.trans h₂.walk, fun xs h => ?_⟩
    obtain ⟨ys, hys, hpasses, hnone⟩ := h₁.group xs h
    obtain ⟨zs, hzs, hpasses', hnone'⟩ := h₂.group (xs ++ ys) hys
    refine ⟨ys ++ zs, by simpa using hzs, ?_, fun hplaces => by rw [hnone hplaces, hnone' hplaces]; rfl⟩
    have hsu := length_le h₁.walk
    have huv := length_le h₂.walk
    exact hpasses.append hpasses' (by omega) (by omega) h₂.walk (by rw [Walk.length_elements]; omega)
  node {c s f} hplace _ :=
    .bind rfl List.prefix_rfl (fun hf => ⟨(hname _ hplace).node hf, _, hplace, hf⟩) s.walk.elements_last
      (Nat.le_refl _) (Nat.le_refl _)
  edge {c s pattern room edge} hplace _ _ _ _ := by
    have hwalk := s.walk.elements_extend edge.1 edge.2
    refine @Collects.bind name places s { s with walk := s.walk.extend edge.1 edge.2, room := room } rfl ?_
      _ _ (fun hf => ⟨(hname _ hplace).edge hf, _, hplace, hf⟩) _ (2 * s.walk.length + 1) ?_ (by omega) ?_
    · rw [hwalk]
      exact List.prefix_append _ _
    · rw [hwalk, ← Walk.length_elements]
      simp
    · rw [Walk.length_extend]
      omega
  group {c s u own mode condition bindings} hplace hinside hclose := by
    refine ⟨hinside.walk, fun xs h => ?_⟩
    obtain ⟨ys, hys, hpasses, hnone⟩ := hinside.group xs h
    exact ⟨ys, hys.closeGroup? hclose (hname _ hplace).group, hpasses, hnone⟩
  again h := ⟨h.walk, h.group⟩

/-- What is added to a group is what the variable takes. -/
theorem collecting_strides {name : String} {places : List Place} (hname : ∀ l ∈ places, l.Collects name) :
    Strides places fun _ s events u => ∀ xs, s.bindings.HoldsGroup name xs →
      u.bindings.HoldsGroup name (xs ++ Passage.elements name events) where
  refl _ s xs h := by rwa [Passage.elements_nil, List.append_nil]
  trans hbefore hlater xs h := by
    rw [Passage.elements_append, ← List.append_assoc]
    exact hlater _ (hbefore xs h)
  node hplace _ xs h := Stage.holdsGroup_taking h (hname _ hplace).node _
  edge {c s pattern room edge} hplace _ _ _ _ xs h :=
    @Stage.holdsGroup_taking { s with walk := s.walk.extend edge.1 edge.2, room := room } name xs h _ _
      (hname _ hplace).edge _
  group hplace hinside hclose xs h := by
    rw [Passage.elements_append, Passage.elements_leaving, List.append_nil]
    exact (hinside xs h).closeGroup? hclose (hname _ hplace).group
  again hbody := hbody

/-! ## Solutions -/

/-- A group that was never reached is empty. -/
theorem Bindings.HoldsGroup.foldl {name : String} {xs : List ElementId} {vs : Assoc String VariableKind}
    {bindings : Bindings} (h : bindings.HoldsGroup name xs) :
    Bindings.HoldsGroup (vs.foldl (fun m v => m.insertNew v.1 (.group [])) bindings) name xs := by
  induction vs generalizing bindings with
  | nil => exact h
  | cons v vs ih =>
    refine ih ?_
    by_cases hv : v.1 = name
    · subst hv
      rw [HoldsGroup, Assoc.get?_insertNew]
      rcases h with h | ⟨h, rfl⟩
      · simp [h, Assoc.has]
      · simp [h, Assoc.has]
    · exact h.insertNew hv _

/-- Whether a path pattern has a name for groups only. -/
def PathPattern.Groups (p : PathPattern) (name : String) : Prop :=
  p.name ≠ some name ∧ ∀ l ∈ p.places, l.Collects name

/-- A passage adds to a group what the variable takes on it: a list along its path. Where the path
pattern declares the variable, the variable is bound to the group; where it does not, nothing is added. -/
structure PathPattern.AddsTo (p : PathPattern) (name : String) (xs : List ElementId) (t : Passage)
    (x : Solution) : Prop where
  holds : x.bindings.HoldsGroup name (xs ++ Passage.elements name t.events)
  passes : t.path.Passes 0 (2 * t.path.length) (Passage.elements name t.events)
  none : name ∉ p.declaredNames → Passage.elements name t.events = []
  bound : name ∈ p.declaredNames →
    x.bindings.get? name = some (.group (xs ++ Passage.elements name t.events))

theorem Search.holdsGroup_solution? {env : Env} {p : PathPattern} {t : Thread} {x : Solution}
    {name : String} {xs : List ElementId} (hx : solution? env (.compile p) t = some x)
    (hp : p.Groups name) (h : t.bindings.HoldsGroup name xs) :
    x.bindings.HoldsGroup name xs ∧
      (name ∈ p.declaredNames → x.bindings.get? name = some (.group xs)) := by
  have hdeclared (hname : name ∈ p.declaredNames) :
      ∃ v ∈ (Program.compile p).groupVariables, v.1 = name := by
    rw [p.declaredNames_eq, List.mem_append, Option.mem_toList, List.mem_filterMap] at hname
    obtain ⟨l, hl, hname⟩ := hname.resolve_left hp.1
    obtain ⟨v, hv⟩ := Option.isSome_iff_exists.mp (hp.2 l hl hname)
    have hkeys : name ∈ (Program.compile p).groupVariables.keys := by
      rw [p.groupVariables_compile]
      refine Assoc.mem_keys_foldl_insertNew.mpr (.inr ⟨v, List.mem_filterMap.mpr ⟨l, hl, hv⟩, ?_⟩)
      exact Option.some.inj ((Place.name?_of_groupVariable? hv).symm.trans hname)
    exact List.mem_map.mp hkeys
  obtain ⟨all, hclose, hx⟩ := of_solution? hx
  have hall : all.HoldsGroup name xs ∧
      (name ∈ p.declaredNames → all.get? name = some (.group xs)) := by
    rw [of_closeGroups? hclose]
    exact ⟨h.foldl, fun hname =>
      h.foldl.of_mem_keys (Assoc.mem_keys_foldl_insertNew.mpr (.inr (hdeclared hname)))⟩
  rcases hx with rfl | ⟨own, later, hname, hbound, rfl⟩
  · exact hall
  · have hne : own ≠ name := fun heq => hp.1 (heq ▸ hname)
    rwa [Bindings.HoldsGroup, Bindings.get?_bindPath? hbound hne]

/-- **Every passage adds to a group along its path.** -/
theorem PathPattern.Leads.addsTo {p : PathPattern} {env : Env} {base : Bindings} {t : Passage}
    {x : Solution} {name : String} {xs : List ElementId} (ht : p.Leads env base t x) (hp : p.Groups name)
    (h : base.HoldsGroup name xs) : p.AddsTo name xs t x := by
  obtain ⟨_, -, hcollects⟩ := ht.strides (collects_moves hp.2).strides
  obtain ⟨_, -, hcollecting⟩ := ht.strides (collecting_strides hp.2)
  obtain ⟨ys, hys, hpasses, hnone⟩ := hcollects.group xs h
  -- What the moves have added is what has been taken on the way.
  obtain rfl : Passage.elements name t.events = ys :=
    List.append_cancel_left ((hcollecting xs h).unique hys)
  obtain ⟨hholds, hbound⟩ := Search.holdsGroup_solution? ht.solution hp hys
  refine ⟨hholds, ?_, fun hname => hnone fun l hl hl' => hname (mem_declaredNames hl hl'), hbound⟩
  rw [Passage.path, Walk.length_toPath]
  exact hpasses

/-! ## Matches -/

/-- **A trek adds to a group what its passages take**, one list after the other. -/
theorem Trek.addsTo {env : Env} {ps : List PathPattern} {base last : Bindings} {ts : List Passage}
    {name : String} (htrek : Trek env ps base ts last) (hps : ∀ p ∈ ps, p.Groups name)
    {xs : List ElementId} (h : base.HoldsGroup name xs) :
    last.HoldsGroup name (xs ++ ts.flatMap fun t => Passage.elements name t.events) ∧
      ((∃ p ∈ ps, name ∈ p.declaredNames) → name ∈ last.keys) ∧
      ∀ (i : Nat) (p : PathPattern) (t : Passage), ps[i]? = some p → ts[i]? = some t →
        t.path.Passes 0 (2 * t.path.length) (Passage.elements name t.events) ∧
        (name ∉ p.declaredNames → Passage.elements name t.events = []) := by
  induction htrek generalizing xs with
  | nil base => exact ⟨by simpa using h, nofun, nofun⟩
  | @cons p ps base last t x ts ht hts ih =>
    have hadds := ht.addsTo (hps p List.mem_cons_self) h
    obtain ⟨hholds, hbound, hown⟩ := ih (fun q hq => hps q (List.mem_cons_of_mem _ hq)) hadds.holds
    refine ⟨by simpa using hholds, ?_, fun i q u hq hu => ?_⟩
    · rintro ⟨q, hq, hname⟩
      rcases List.mem_cons.mp hq with rfl | hq
      · have hkeys : name ∈ x.bindings.keys := by
          rw [← Assoc.has_iff_mem_keys, Assoc.has, hadds.bound hname]
          rfl
        exact hts.growsTo.keys hkeys
      · exact hbound ⟨q, hq, hname⟩
    · cases i with
      | zero =>
        cases hq
        cases hu
        exact ⟨hadds.passes, hadds.none⟩
      | succ i => exact hown i q u hq hu

/-- In a pattern that makes sense a variable under a quantifier is a variable for groups everywhere. -/
theorem PathPattern.groups_of_validate {g : GraphPattern} {store : Store} {strict : Bool}
    {bound kinds : VariableKinds} (h : g.validate store strict bound = .ok kinds) {p q : PathPattern}
    (hp : p ∈ g.paths) (hq : q ∈ g.paths) {l : Place} (hl : l ∈ p.places) {v : String × VariableKind}
    (hv : l.groupVariable? = some v) : q.Groups v.1 := by
  have hkinds := g.kind_of_validate h
  have hname := l.name?_of_groupVariable? hv
  have hkind := VariableKinds.kind_of_place hkinds (declarations_subset hp) hl hname
  have hgroup : l.kind.isGroup = true := by
    rw [Place.isGroup_kind hname, hv]
    rfl
  refine ⟨fun hown => ?_, fun l' hl' hname' => ?_⟩
  · have hd : .variable v.1 .path ∈ q.declarations := by
      simp [declarations, hown]
    obtain ⟨_, _, heq, hpath⟩ := VariableKinds.of_mem hkinds (declarations_subset hq hd)
    cases heq
    rw [Option.some.inj (hkind.symm.trans hpath)] at hgroup
    cases hgroup
  · have hkind' := VariableKinds.kind_of_place hkinds (declarations_subset hq) hl' hname'
    rw [← Place.isGroup_kind hname', Option.some.inj (hkind'.symm.trans hkind), hgroup]

/-- **A match binds a group variable to all that it takes** on the passages of its path patterns, one
list after the other: each list goes along the path of its path pattern, and those of path patterns that
do not declare the variable are empty. -/
theorem GraphPattern.matches_groups (p : GraphPattern) (g : Graph) (config : MatchConfig)
    (seed : Bindings) {found : List Match} {pattern : PathPattern} {l : Place} {name : String}
    {kind : VariableKind} (hg : g.Built)
    (h : (p.matches ⟨g.store, config, seed⟩).map (·.1) = .ok found) (hpattern : pattern ∈ p.paths)
    (hl : l ∈ pattern.places) (hname : l.groupVariable? = some (name, kind)) :
    ∀ m ∈ found, (∃ ts, p.GoesThrough ⟨g.store, config, seed⟩ m ts) ∧
      ∀ ts, p.GoesThrough ⟨g.store, config, seed⟩ m ts → ts.length = p.paths.length ∧
        m.bindings.get? name = some (.group (ts.flatMap fun t => Passage.elements name t.events)) ∧
        ∀ (i : Nat) (q : PathPattern) (path : Path) (t : Passage), p.paths[i]? = some q →
          m.paths[i]? = some path → ts[i]? = some t →
          path.Passes 0 (2 * path.length) (Passage.elements name t.events) ∧
          (name ∉ q.declaredNames → Passage.elements name t.events = []) := by
  obtain ⟨⟨kinds, hvalid⟩, -⟩ := mem_matches h
  intro m hm
  refine ⟨exists_goesThrough hg.indexed rfl h m hm, fun ts hts => ⟨hts.length_eq, ?_⟩⟩
  have hgroups : ∀ q ∈ p.paths, q.Groups name := fun q hq =>
    PathPattern.groups_of_validate hvalid hpattern hq hl hname
  obtain ⟨last, htrek, hbindings⟩ := hts.trek
  obtain ⟨hholds, hbound, hown⟩ :=
    htrek.addsTo hgroups (.inr ⟨rfl, rfl⟩ : Bindings.HoldsGroup [] name [])
  have hdeclared : name ∈ pattern.declaredNames :=
    PathPattern.mem_declaredNames hl (Place.name?_of_groupVariable? hname)
  refine ⟨?_, fun i q path t hq hpath ht => ?_⟩
  · have hlast := hholds.of_mem_keys (hbound ⟨pattern, hpattern, hdeclared⟩)
    rw [hbindings, Join.get?_combine (htrek.growsTo.nodup List.nodup_nil), hlast]
    rfl
  · rw [← hts.path_eq hpath ht]
    exact hown i q t hq ht

/-- A path over one edge, which a repetition collects. -/
def PathPattern.collectedHop : PathPattern :=
  { expr := .term [.mk (.node {}) none,
      .mk (.edge { filler := { name := some "e" }, direction := .right }) (some (.exactly 1)),
      .mk (.node {}) none] }

theorem repeatedPassages_once (body : Stage → List Passage) (s : Stage) :
    repeatedPassages body 1 (some 1) 0 s =
      (body s).map fun t => ⟨{ t.stage with taken := s.taken }, t.events⟩ := by
  have hstop (u : Stage) : repeatedPassages body 1 (some 1) 1 u = [⟨u, []⟩] := by
    rw [repeatedPassages]
    rfl
  rw [repeatedPassages, dif_pos Nat.zero_lt_one, List.map_eq_flatMap]
  simp only [hstop, List.map_singleton, Passage.after, List.append_nil]

theorem passages_collectedHop (seed base : Bindings) :
    PathPattern.collectedHop.passages ⟨Graph.hop.store, { maxPathLength := 1 }, seed⟩ base 1 =
      [⟨⟨⟨⟨1⟩, [(⟨1⟩, ⟨2⟩)]⟩, Thread.collect base "e" (.edge ⟨1⟩), [], 0⟩, [.took "e" (.edge ⟨1⟩)]⟩] := by
  let vertex : Factor := .mk (.node {}) none
  let edge : Element := .edge { filler := { name := some "e" }, direction := .right }
  have hloop (c : Surroundings) (s : Stage) : (Factor.mk edge (some (.exactly 1))).passages c s =
      (edge.passages { c with repeated := true } s).map fun t =>
        ⟨{ t.stage with taken := s.taken }, t.events⟩ := by
    rw [Factor.passages]
    exact repeatedPassages_once ..
  change (startVertices _ (.compile .collectedHop) base).flatMap (fun v =>
    (vertex.passages _ _).flatMap fun (s : Passage) =>
      (((Factor.mk edge (some (.exactly 1))).passages _ s.stage).flatMap fun (u : Passage) =>
        ((vertex.passages _ u.stage).flatMap fun (w : Passage) =>
          [(⟨w.stage, []⟩ : Passage)].map (Passage.after w.events)).map
            (Passage.after u.events)).map (Passage.after s.events)) = _
  simp only [hloop]
  rfl

theorem ways_collectedHop (seed base : Bindings) :
    PathPattern.collectedHop.ways ⟨Graph.hop.store, { maxPathLength := 1 }, seed⟩ base 1 =
      [⟨⟨⟨1⟩, [(⟨1⟩, ⟨2⟩)]⟩, Thread.collect base "e" (.edge ⟨1⟩), [], 0⟩] := by
  rw [← PathPattern.stages_passages, passages_collectedHop, List.map_singleton]

theorem solutions_collectedHop (base : Bindings) (xs : List ElementId)
    (h : Thread.collect base "e" (.edge ⟨1⟩) = [("e", .group xs)]) :
    (Program.compile .collectedHop).solutions ⟨Graph.hop.store, { maxPathLength := 1 }, []⟩ base =
      [⟨[("e", .group xs)], ⟨[⟨1⟩, ⟨2⟩], [⟨1⟩]⟩⟩] := by
  rw [Program.solutions_all rfl rfl, PathPattern.matched_ways]
  exact (congrArg (List.filterMap _) ((ways_collectedHop [] base).trans (by rw [h]))).trans rfl

theorem matches_collectedHop :
    let p : GraphPattern := { paths := [.collectedHop, .collectedHop] }
    let env : Env := ⟨Graph.hop.store, { maxPathLength := 1 }, []⟩
    let path : Path := ⟨[⟨1⟩, ⟨2⟩], [⟨1⟩]⟩
    (p.matches env).map (·.1) = .ok [⟨[("e", .group [.edge ⟨1⟩, .edge ⟨1⟩])], [path, path]⟩] := by
  intro p env path
  have hfirst := solutions_collectedHop [] [.edge ⟨1⟩] rfl
  have hsecond := solutions_collectedHop [("e", .group [.edge ⟨1⟩])] [.edge ⟨1⟩, .edge ⟨1⟩] rfl
  have hvalid : p.validate env.store true [] = .ok [("e", .edgeGroup)] := rfl
  have hall : (p.join env).all (p.paths.map .compile) =
      [⟨[("e", .group [.edge ⟨1⟩, .edge ⟨1⟩])], [path, path]⟩] := by
    change (p.join env).results [.compile .collectedHop, .compile .collectedHop] [] [] = _
    rw [Join.results, show (p.join env).env = env from rfl, hfirst, List.flatMap_singleton, Join.results,
      show (p.join env).env = env from rfl, hsecond]
    rfl
  exact (p.matches_all env rfl).trans ((congrArg (Except.map _) hvalid).trans (congrArg _ hall))

/-- The group of both path patterns is made of the edge that the one takes and the edge that the other
takes. -/
theorem matches_groups_hop :
    let p : GraphPattern := { paths := [.collectedHop, .collectedHop] }
    let env : Env := ⟨Graph.hop.store, { maxPathLength := 1 }, []⟩
    let path : Path := ⟨[⟨1⟩, ⟨2⟩], [⟨1⟩]⟩
    let m : Match := ⟨[("e", .group [.edge ⟨1⟩, .edge ⟨1⟩])], [path, path]⟩
    Graph.hop.Built ∧ (p.matches env).map (·.1) = .ok [m] ∧
      ∃ t u, p.GoesThrough env m [t, u] ∧ Passage.elements "e" t.events = [.edge ⟨1⟩] ∧
        Passage.elements "e" u.events = [.edge ⟨1⟩] ∧ path.Passes 0 2 [.edge ⟨1⟩] := by
  intro p env path m
  refine ⟨Graph.built_hop, matches_collectedHop, ?_⟩
  have hplace : .edge { filler := { name := some "e" }, direction := .right } true ∈
      PathPattern.collectedHop.places := by simp [PathPattern.places, PathPattern.collectedHop,
        PathExpr.places, termPlaces, Factor.places, Element.places]
  obtain ⟨⟨ts, hts⟩, hgroups⟩ := p.matches_groups Graph.hop env.config [] Graph.built_hop
    matches_collectedHop List.mem_cons_self hplace rfl m (List.mem_singleton_self m)
  obtain ⟨hlength, -, hown⟩ := hgroups ts hts
  obtain ⟨t, u, rfl⟩ := List.length_eq_two.mp hlength
  have htook {base : Bindings} {x : Solution} {v : Passage}
      (hv : PathPattern.collectedHop.Leads (env.withSteps none) base v x) :
      Passage.elements "e" v.events = [.edge ⟨1⟩] := by
    obtain rfl := List.mem_singleton.mp ((passages_collectedHop [] base) ▸ hv.mem)
    rfl
  obtain ⟨_, htrek, -⟩ := hts.trek
  cases htrek with
  | cons ht hrest =>
    cases hrest with
    | cons hu _ =>
      obtain ⟨hpasses, -⟩ := hown 0 _ path t rfl rfl rfl
      exact ⟨t, u, hts, htook ht, htook hu, htook ht ▸ hpasses⟩

/-- Each of two path patterns collects the one edge on its path, and alone it binds the variable to
that; but together they bind it to the edge twice. -/
theorem matches_groups_appended :
    let p : GraphPattern := { paths := [.collectedHop, .collectedHop] }
    let env : Env := ⟨Graph.hop.store, { maxPathLength := 1 }, []⟩
    let path : Path := ⟨[⟨1⟩, ⟨2⟩], [⟨1⟩]⟩
    (PathPattern.collectedHop.toGraphPattern.matches env).map (·.1) =
        .ok [⟨[("e", .group [.edge ⟨1⟩])], [path]⟩] ∧
      (p.matches env).map (·.1) = .ok [⟨[("e", .group [.edge ⟨1⟩, .edge ⟨1⟩])], [path, path]⟩] := by
  intro p env path
  have hvalid : PathPattern.collectedHop.toGraphPattern.validate env.store true [] =
    .ok [("e", .edgeGroup)] := rfl
  have halone := PathPattern.collectedHop.matches_single env rfl
  rw [solutions_collectedHop [] [.edge ⟨1⟩] rfl] at halone
  exact ⟨halone.trans (congrArg (Except.map _) hvalid), matches_collectedHop⟩

end GraphPatterns
