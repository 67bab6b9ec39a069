/-
Which patterns are refused, and why. A pattern is refused for its configuration if a quantifier somewhere
in it has its bounds crossed; one without such a quantifier is refused for its meaning unless it is
coherent: every variable is declared with one kind, no variable for a sub-path is repeated, and every
name that is used is known (`GraphPattern.validate_verdict`). The kinds of a pattern that makes sense are
listed in the order in which its variables are first declared (`GraphPattern.DeclaredKinds`).
-/
import GraphPatterns.Error
import GraphPatterns.Graph.Basic
import GraphPatterns.Proofs.Declared

namespace GraphPatterns

namespace GraphPattern

/-! ## What stands in a pattern -/

/-- Some quantifier has a lower bound above its upper bound. -/
def HasCrossedBounds (g : GraphPattern) : Prop :=
  ∃ address repeated e lower upper,
    g.Has address repeated (.mk e (some (.between lower upper))) ∧ upper < lower

/-- What is asked of a node or of an edge. -/
inductive HasFiller (g : GraphPattern) : Filler → Prop where
  | node {address : List Nat} {repeated : Bool} {f : NodePattern} {q : Option Quantifier}
    (h : g.Has address repeated (.mk (.node f) q)) : HasFiller g f
  | edge {address : List Nat} {repeated : Bool} {pattern : EdgePattern} {q : Option Quantifier}
    (h : g.Has address repeated (.mk (.edge pattern) q)) : HasFiller g pattern.filler

/-- The WHERE clauses of a pattern: those of its elements, of its groups and its own. -/
inductive HasCondition (g : GraphPattern) : Expr → Prop where
  | element {f : Filler} {e : Expr} (h : g.HasFiller f) (he : f.condition = some e) : HasCondition g e
  | group {address : List Nat} {repeated : Bool} {name : Option String} {mode : Option PathMode}
    {body : PathExpr} {e : Expr} {q : Option Quantifier}
    (h : g.Has address repeated (.mk (.group name mode body (some e)) q)) : HasCondition g e
  | whole {e : Expr} (he : g.condition = some e) : HasCondition g e

/-- A WHERE clause mentions a variable. -/
def UsesVariable (g : GraphPattern) (name : String) : Prop :=
  ∃ e, g.HasCondition e ∧ e.HasVariable name

/-- A label is asked for. -/
def UsesLabel (g : GraphPattern) (label : String) : Prop :=
  ∃ f e, g.HasFiller f ∧ f.label = some e ∧ LabelExpr.IsPart (.name label) e

/-- A property is asked for, or a WHERE clause mentions it. -/
def UsesKey (g : GraphPattern) (key : String) : Prop :=
  (∃ f v, g.HasFiller f ∧ (key, v) ∈ f.properties) ∨ ∃ e, g.HasCondition e ∧ e.HasKey key

/-- A pattern that says something, given what is bound before the match. -/
structure Coherent (g : GraphPattern) (store : Store) (strict : Bool) (bound : VariableKinds) : Prop where
  oneKind : ∀ {name here there kind kind'}, g.DeclaresAt here name kind →
    g.DeclaresAt there name kind' → kind = kind'
  subpaths : ∀ {address repeated name mode body condition q},
    g.Has address repeated (.mk (.group (some name) mode body condition) q) → repeated = false
  before : ∀ {name kind address declared}, (name, kind) ∈ bound →
    g.DeclaresAt address name declared → declared = kind
  defined : ∀ {name}, g.UsesVariable name →
    (∃ address kind, g.DeclaresAt address name kind) ∨ name ∈ bound.keys
  labels : strict = true → ∀ {label}, g.UsesLabel label → store.knowsLabel label = true
  keys : strict = true → ∀ {key}, g.UsesKey key → store.knowsKey key = true

end GraphPattern

/-! ## Mentions -/

theorem mem_conditionMentions {condition : Option Expr} {m : Mention} :
    m ∈ conditionMentions condition ↔ ∃ e, condition = some e ∧
      ((∃ name, e.HasVariable name ∧ m = .variable name) ∨ ∃ key, e.HasKey key ∧ m = .key key) := by
  cases condition with
  | none => simp [conditionMentions]
  | some e =>
    simp only [conditionMentions, Expr.mentions, List.mem_append, List.mem_map, Expr.mem_vars_iff,
      Expr.mem_keys_iff, Option.some.injEq, exists_eq_left', eq_comm]

theorem Filler.mem_mentions_iff {f : Filler} {m : Mention} :
    m ∈ f.mentions ↔ (∃ e label, f.label = some e ∧ LabelExpr.IsPart (.name label) e ∧ m = .label label) ∨
      (∃ key v, (key, v) ∈ f.properties ∧ m = .key key) ∨ m ∈ conditionMentions f.condition := by
  rw [mentions, List.mem_append, List.mem_append, or_assoc]
  refine or_congr ?_ (or_congr_left ?_)
  · cases f.label with
    | none => simp
    | some e => simp [LabelExpr.mem_names_iff, eq_comm]
  · simp [eq_comm]

namespace GraphPattern

variable {g : GraphPattern}

/-- What is mentioned at the places of a pattern is mentioned by its fillers and its WHERE clauses. -/
theorem mem_mentions_iff {m : Mention} : m ∈ g.mentions ↔
    (∃ f, g.HasFiller f ∧ m ∈ f.mentions) ∨
      ∃ e, g.HasCondition e ∧ m ∈ conditionMentions (some e) := by
  have hplaces : m ∈ g.paths.flatMap (·.expr.mentions) ↔
      ∃ address repeated f, g.Has address repeated f ∧ m ∈ (f.element.place repeated).mentions := by
    rw [← exists_located_iff]
    simp only [List.mem_flatMap, PathExpr.mem_mentions_iff _ false, PathExpr.places_located,
      Bool.false_or, List.mem_singleton]
    exact ⟨fun ⟨p, hp, _, ⟨l, hl, heq⟩, hm⟩ => ⟨p, hp, l, hl, heq ▸ hm⟩,
      fun ⟨p, hp, l, hl, hm⟩ => ⟨p, hp, _, ⟨l, hl, rfl⟩, hm⟩⟩
  rw [mentions, List.mem_append, hplaces]
  constructor
  · rintro (⟨_, _, ⟨e, q⟩, hf, hm⟩ | hm)
    · cases e with
      | node f => exact .inl ⟨f, .node hf, hm⟩
      | edge pattern => exact .inl ⟨pattern.filler, .edge hf, hm⟩
      | group name mode body condition =>
        cases condition with
        | none => cases hm
        | some e => exact .inr ⟨e, .group hf, hm⟩
    · cases hcondition : g.condition with
      | none =>
        rw [hcondition] at hm
        cases hm
      | some e => exact .inr ⟨e, .whole hcondition, hcondition ▸ hm⟩
  · have filler {f : Filler} (h : g.HasFiller f) (hm : m ∈ f.mentions) :
        ∃ address repeated f, g.Has address repeated f ∧ m ∈ (f.element.place repeated).mentions := by
      cases h with
      | node hf => exact ⟨_, _, _, hf, hm⟩
      | edge hf => exact ⟨_, _, _, hf, hm⟩
    rintro (⟨f, h, hm⟩ | ⟨e, he, hm⟩)
    · exact .inl (filler h hm)
    · cases he with
      | element h he => exact .inl (filler h (Filler.mem_mentions_iff.mpr (.inr (.inr (he ▸ hm)))))
      | group hf => exact .inl ⟨_, _, _, hf, hm⟩
      | whole he => exact .inr (he ▸ hm)

/-- A name is used in a pattern. -/
def Uses (g : GraphPattern) : Mention → Prop
  | .label label => g.UsesLabel label
  | .key key => g.UsesKey key
  | .variable name => g.UsesVariable name

/-- **The mentions that are checked are the names that are used**, wherever they stand. -/
theorem mem_mentions_iff_uses {m : Mention} : m ∈ g.mentions ↔ g.Uses m := by
  rw [mem_mentions_iff]
  simp only [Filler.mem_mentions_iff, mem_conditionMentions]
  cases m with
  | label label => simp [Uses, UsesLabel]
  | key key =>
    simp only [Uses, UsesKey, reduceCtorEq, Mention.key.injEq, and_false, exists_false, false_or,
      exists_eq_right', Option.some.injEq, exists_eq_left']
    constructor
    · rintro (⟨f, h, ⟨_, v, hv, rfl⟩ | ⟨e, he, hkey⟩⟩ | ⟨e, he, hkey⟩)
      · exact .inl ⟨f, v, h, hv⟩
      · exact .inr ⟨e, .element h he, hkey⟩
      · exact .inr ⟨e, he, hkey⟩
    · rintro (⟨f, v, h, hv⟩ | ⟨e, he, hkey⟩)
      · exact .inl ⟨f, h, .inl ⟨key, v, hv, rfl⟩⟩
      · exact .inr ⟨e, he, hkey⟩
  | «variable» name =>
    simp only [Uses, UsesVariable, reduceCtorEq, Mention.variable.injEq, and_false, exists_false,
      false_or, or_false, exists_eq_right', Option.some.injEq, exists_eq_left']
    constructor
    · rintro (⟨f, h, e, he, hname⟩ | he)
      · exact ⟨e, .element h he, hname⟩
      · exact he
    · exact .inr

end GraphPattern

/-! ## What each check reports -/

section Reports

variable {e : PatternError} {kinds bound : VariableKinds}

theorem Quantifier.of_check_error {q : Quantifier} (h : q.check = .error e) :
    ∃ lower upper, e = .crossedBounds lower upper := by
  cases q with
  | between lower upper =>
    rw [check] at h
    split at h
    · cases h
      exact ⟨lower, upper, rfl⟩
    · cases h
  | _ => cases h

theorem VariableKinds.of_ofDeclarations_error {ds : List Declaration} (h : ofDeclarations ds = .error e) :
    (∃ name, e = .repeatedPath name) ∨ ∃ name first second, e = .twoKinds name first second := by
  obtain ⟨kinds, d, -, h⟩ := exists_error_of_foldlM h
  cases d with
  | repeatedPath name =>
    cases h
    exact .inl ⟨name, rfl⟩
  | «variable» name kind =>
    rw [declare] at h
    split at h
    · cases h
    · split at h
      · cases h
      · cases h
        exact .inr ⟨name, _, kind, rfl⟩

theorem VariableKinds.of_checkBound_error {entry : String × VariableKind}
    (h : kinds.checkBound entry = .error e) : ∃ declared, e = .boundOtherwise entry.1 entry.2 declared := by
  rw [checkBound] at h
  split at h
  · split at h
    · cases h
    · cases h
      exact ⟨_, rfl⟩
  · cases h

theorem Mention.of_check_error {store : Store} {strict : Bool} {m : Mention}
    (h : m.check store strict kinds bound = .error e) :
    match m with
    | .label own => e = .unknownLabel own
    | .key own => e = .unknownKey own
    | .variable name => e = .undefinedVariable name ∧ name ∉ kinds.keys ∧ name ∉ bound.keys := by
  cases m with
  | label _ | key _ =>
    rw [check] at h
    split at h <;> cases h
    rfl
  | «variable» name =>
    rw [check] at h
    split at h
    · cases h
    · next hnew =>
      cases h
      rw [Bool.or_eq_true, not_or, Assoc.has_iff_mem_keys, Assoc.has_iff_mem_keys] at hnew
      exact ⟨rfl, hnew⟩

theorem VariableKinds.checkBound_eq_ok_iff {entry : String × VariableKind} :
    kinds.checkBound entry = .ok () ↔
      ∀ declared, kinds.get? entry.1 = some declared → declared = entry.2 := by
  rw [checkBound]
  cases kinds.get? entry.1 with
  | none => simp
  | some declared => simp

theorem Mention.check_eq_ok_iff {store : Store} {strict : Bool} {m : Mention} :
    m.check store strict kinds bound = .ok () ↔
      match m with
      | .label own => strict = true → store.knowsLabel own = true
      | .key own => strict = true → store.knowsKey own = true
      | .variable name => name ∈ kinds.keys ∨ name ∈ bound.keys := by
  cases m <;> simp [check, Assoc.has_iff_mem_keys, or_iff_not_imp_left]

end Reports

/-! ## Verdicts -/

namespace GraphPattern

variable {g : GraphPattern} {name : String} {kinds bound : VariableKinds} {store : Store} {strict : Bool}

theorem mem_quantifiers_iff {q : Quantifier} : q ∈ g.paths.flatMap (·.expr.quantifiers) ↔
    ∃ address repeated e, g.Has address repeated (.mk e (some q)) := by
  simp only [List.mem_flatMap, PathExpr.quantifiers_located, Option.mem_toList]
  refine (exists_located_iff (P := fun _ f => f.quantifier = some q)).trans ⟨?_, ?_⟩
  · rintro ⟨address, repeated, ⟨e, own⟩, hf, hq⟩
    obtain rfl : own = some q := hq
    exact ⟨address, repeated, e, hf⟩
  · rintro ⟨address, repeated, e, hf⟩
    exact ⟨address, repeated, _, hf, rfl⟩

/-- The quantifiers of a pattern pass their check if none has its bounds crossed. -/
theorem forall_check_iff :
    (∀ q ∈ g.paths.flatMap (·.expr.quantifiers), q.check = .ok ()) ↔ ¬g.HasCrossedBounds := by
  simp only [mem_quantifiers_iff]
  constructor
  · rintro h ⟨address, repeated, e, lower, upper, hf, hcrossed⟩
    have hcheck := h _ ⟨address, repeated, e, hf⟩
    rw [Quantifier.check, if_pos hcrossed] at hcheck
    cases hcheck
  · rintro h q ⟨address, repeated, e, hf⟩
    cases q with
    | between lower upper =>
      exact if_neg fun hcrossed => h ⟨address, repeated, e, lower, upper, hf, hcrossed⟩
    | _ => rfl

/-- **What makes sense is what has its bounds in order and is coherent.** -/
theorem exists_validate_eq_ok_iff : (∃ kinds, g.validate store strict bound = .ok kinds) ↔
    ¬g.HasCrossedBounds ∧ g.Coherent store strict bound := by
  simp only [validate_eq_ok_iff]
  constructor
  · rintro ⟨kinds, hquantifiers, hkinds, hbefore, hmentions⟩
    obtain ⟨hone, hpath⟩ := exists_kinds_iff.mp ⟨kinds, hkinds⟩
    have hused {m : Mention} (h : g.Uses m) :=
      Mention.check_eq_ok_iff.mp (hmentions m (mem_mentions_iff_uses.mpr h))
    refine ⟨forall_check_iff.mp hquantifiers, hone, hpath, fun hentry hd => ?_, fun {name} hname => ?_,
      fun hs {label} h => hused (m := .label label) h hs, fun hs {key} h => hused (m := .key key) h hs⟩
    · exact VariableKinds.checkBound_eq_ok_iff.mp (hbefore _ hentry) _ ((get?_iff hkinds).mpr ⟨_, hd⟩)
    · exact (hused (m := .variable name) hname).imp_left (declaredKinds hkinds).mem_keys_iff.mp
  · rintro ⟨hbounds, h⟩
    obtain ⟨kinds, hkinds⟩ := exists_kinds_iff.mpr ⟨h.oneKind, h.subpaths⟩
    refine ⟨kinds, forall_check_iff.mpr hbounds, hkinds, fun entry hentry => ?_, fun m hm => ?_⟩
    · refine VariableKinds.checkBound_eq_ok_iff.mpr fun declared hget => ?_
      obtain ⟨address, hd⟩ := (get?_iff hkinds).mp hget
      exact h.before hentry hd
    · have hm := mem_mentions_iff_uses.mp hm
      cases m with
      | label label => exact Mention.check_eq_ok_iff.mpr fun hs => h.labels hs hm
      | key key => exact Mention.check_eq_ok_iff.mpr fun hs => h.keys hs hm
      | «variable» name =>
        exact Mention.check_eq_ok_iff.mpr
          ((h.defined hm).imp_left (declaredKinds hkinds).mem_keys_iff.mpr)

/-- A pattern is refused for its configuration because of its quantifiers only. -/
theorem isConfiguration_iff {e : PatternError} (h : g.validate store strict bound = .error e) :
    e.isConfiguration = true ↔ g.HasCrossedBounds := by
  rcases validate_eq_error h with ⟨q, hq, he⟩ | ⟨hchecked, he⟩
  · have hbounds : g.HasCrossedBounds := by
      by_contra hbounds
      rw [forall_check_iff.mpr hbounds q hq] at he
      cases he
    obtain ⟨lower, upper, rfl⟩ := Quantifier.of_check_error he
    exact iff_of_true rfl hbounds
  · refine iff_of_false ?_ (forall_check_iff.mp hchecked)
    rcases he with he | ⟨kinds, -, ⟨entry, -, he⟩ | ⟨m, -, he⟩⟩
    · rcases VariableKinds.of_ofDeclarations_error he with ⟨_, rfl⟩ | ⟨_, _, _, rfl⟩ <;>
        exact Bool.false_ne_true
    · obtain ⟨_, rfl⟩ := VariableKinds.of_checkBound_error he
      exact Bool.false_ne_true
    · have he := Mention.of_check_error he
      cases m with
      | label _ | key _ =>
        cases he
        exact Bool.false_ne_true
      | «variable» _ =>
        obtain ⟨rfl, -⟩ := he
        exact Bool.false_ne_true

/-- A variable that is reported as undefined is used, but neither declared nor bound before the match. -/
theorem undefined_of_validate (h : g.validate store strict bound = .error (.undefinedVariable name)) :
    g.UsesVariable name ∧ (¬∃ address kind, g.DeclaresAt address name kind) ∧ name ∉ bound.keys := by
  rcases validate_eq_error h with ⟨q, -, he⟩ | ⟨-, he | ⟨kinds, hkinds, ⟨entry, -, he⟩ | ⟨m, hm, he⟩⟩⟩
  · obtain ⟨_, _, he⟩ := Quantifier.of_check_error he
    cases he
  · rcases VariableKinds.of_ofDeclarations_error he with ⟨_, he⟩ | ⟨_, _, _, he⟩ <;> cases he
  · obtain ⟨_, he⟩ := VariableKinds.of_checkBound_error he
    cases he
  · have he := Mention.of_check_error he
    cases m with
    | label _ | key _ => cases he
    | «variable» own =>
      obtain ⟨⟨⟩, hdeclared, hbound⟩ := he
      exact ⟨mem_mentions_iff_uses.mp hm, mt (declaredKinds hkinds).mem_keys_iff.mpr hdeclared, hbound⟩

/-- **The verdict on a pattern.** It is refused for its configuration if a quantifier has its bounds
crossed; otherwise it is accepted if it is coherent, with the kinds of its variables, and refused for its
meaning if it is not. -/
theorem validate_verdict (g : GraphPattern) (store : Store) (strict : Bool) (bound : VariableKinds) :
    ((∃ e, g.validate store strict bound = .error e ∧ e.isConfiguration = true) ↔ g.HasCrossedBounds) ∧
      ((∃ kinds, g.validate store strict bound = .ok kinds) ↔
        ¬g.HasCrossedBounds ∧ g.Coherent store strict bound) ∧
      ((∃ e, g.validate store strict bound = .error e ∧ e.isConfiguration = false) ↔
        ¬g.HasCrossedBounds ∧ ¬g.Coherent store strict bound) ∧
      ∀ kinds, g.validate store strict bound = .ok kinds → g.DeclaredKinds kinds := by
  have haccepted : (∃ kinds, g.validate store strict bound = .ok kinds) ↔ _ := exists_validate_eq_ok_iff
  cases h : g.validate store strict bound with
  | ok kinds =>
    obtain ⟨hbounds, hcoherent⟩ := haccepted.mp ⟨kinds, h⟩
    refine ⟨iff_of_false (fun ⟨_, he, _⟩ => nomatch he) hbounds, h ▸ haccepted,
      iff_of_false (fun ⟨_, he, _⟩ => nomatch he) fun hrefused => hrefused.2 hcoherent, ?_⟩
    rintro _ ⟨⟩
    exact declaredKinds (kind_of_validate h)
  | error e =>
    have hbounds := isConfiguration_iff h
    rw [h] at haccepted
    refine ⟨⟨?_, fun hcrossed => ⟨e, rfl, hbounds.mpr hcrossed⟩⟩, haccepted, ⟨?_, ?_⟩, nofun⟩
    · rintro ⟨_, ⟨⟩, hconfiguration⟩
      exact hbounds.mp hconfiguration
    · rintro ⟨_, ⟨⟩, hmeaning⟩
      have hordered : ¬g.HasCrossedBounds := fun hcrossed => by
        rw [hbounds.mpr hcrossed] at hmeaning
        cases hmeaning
      exact ⟨hordered, fun hcoherent => nomatch haccepted.mpr ⟨hordered, hcoherent⟩⟩
    · rintro ⟨hordered, -⟩
      exact ⟨e, rfl, Bool.eq_false_iff.mpr (mt hbounds.mp hordered)⟩

/-- A pattern that makes sense. Its repeated group has a condition on what is bound before the match. -/
theorem validate_verdict_repeated :
    let body : PathExpr := .term [.mk (.node { name := some "x" }) none,
      .mk (.edge { filler := { name := some "e" }, direction := .right }) none]
    let expr : PathExpr := .term [.mk (.group none none body (some (.var "c"))) (some (.between 1 2)),
      .mk (.node { name := some "a" }) none]
    let g : GraphPattern := { paths := [{ name := some "p", expr := expr }] }
    let store := Graph.empty.store
    let bound : VariableKinds := [("c", .node)]
    let kinds : VariableKinds := [("p", .path), ("x", .nodeGroup), ("e", .edgeGroup), ("a", .node)]
    g.validate store true bound = .ok kinds ∧ ¬g.HasCrossedBounds ∧ g.Coherent store true bound ∧
      g.DeclaredKinds kinds := by
  intro body expr g store bound kinds
  obtain ⟨-, haccepted, -, hdeclared⟩ := validate_verdict g store true bound
  have h : g.validate store true bound = .ok kinds := rfl
  obtain ⟨hbounds, hcoherent⟩ := haccepted.mp ⟨kinds, h⟩
  exact ⟨h, hbounds, hcoherent, hdeclared kinds h⟩

end GraphPattern

end GraphPatterns
