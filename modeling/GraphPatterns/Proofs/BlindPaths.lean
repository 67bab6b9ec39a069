/-
Parsers of paths and of whole texts are blind to layout, and so is the reading of a pattern
(`GraphPattern.parse_eq_ok_iff_of_relaid`). What is tried between parentheses fails in both texts or in none,
so that both go back to a node, or neither does.
-/
import GraphPatterns.Proofs.BlindElements

namespace GraphPatterns.Parser

variable {s t r u : List Char} {k l : Nat} {inner inner' : Parse PathExpr}

/-! ## What stands before a path -/

theorem agree_declaration? (h : Relaid s t) : AgreeChoice s t (declaration? s) (declaration? t) := by
  rw [declaration?, declaration?, isAtName_eq h]
  split
  · rcases agree_identifier h with ⟨e, f, hs, ht⟩ | ⟨name, r, u, hs, ht, hru, hr, hu⟩
    · rw [hs, ht]
      exact .inl ⟨rfl, rfl⟩
    · rw [hs, ht]
      rcases blindToken_char '=' (by decide) hru with ⟨hs, ht⟩ | ⟨r', u', hs, ht, hru, hlt, hlt'⟩
      · simp only [hs, ht]
        exact .inl ⟨rfl, rfl⟩
      · simp only [hs, ht]
        exact .inr ⟨name, r', u', rfl, rfl, hru, by omega, by omega⟩
  · exact .inl ⟨rfl, rfl⟩

/-- What needs not be there is there in both texts, or in none of them. -/
theorem exists_declaration (h : Relaid s t) :
    ∃ name r u, declaration s = (name, r) ∧ declaration t = (name, u) ∧ Relaid r u ∧
      r.length ≤ s.length ∧ u.length ≤ t.length := by
  rw [declaration, declaration]
  rcases agree_declaration? h with ⟨hs, ht⟩ | ⟨name, r, u, hs, ht, hru, hr, hu⟩
  · rw [hs, ht]
    exact ⟨none, s, t, rfl, rfl, h, Nat.le_refl _, Nat.le_refl _⟩
  · rw [hs, ht]
    exact ⟨some name, r, u, rfl, rfl, hru, Nat.le_of_lt hr, Nat.le_of_lt hu⟩

theorem Relaid.skipPathWord (h : Relaid s t) : Relaid (skipPathWord s) (Parser.skipPathWord t) ∧
    (Parser.skipPathWord s).length ≤ s.length ∧ (Parser.skipPathWord t).length ≤ t.length :=
  ((blindToken_keyword "PATHS" (by decide) h).or (blindToken_keyword "PATH" (by decide) h)).getD h

theorem exists_mode (h : Relaid s t) : ∃ m r u, mode s = (m, r) ∧ mode t = (m, u) ∧
    Relaid r u ∧ r.length ≤ s.length ∧ u.length ≤ t.length := by
  have hmodes : BlindChoice (keywordChoice? [("WALK", PathMode.walk), ("TRAIL", .trail), ("SIMPLE", .simple),
    ("ACYCLIC", .acyclic)]) := blindChoice_keywords (by decide)
  rw [mode, mode]
  rcases hmodes h with ⟨hs, ht⟩ | ⟨m, r, u, hs, ht, hru, hr, hu⟩
  · rw [hs, ht]
    exact ⟨none, s, t, rfl, rfl, h, Nat.le_refl _, Nat.le_refl _⟩
  · rw [hs, ht]
    obtain ⟨hword, hle, hle'⟩ := hru.skipPathWord
    exact ⟨some m, _, _, rfl, rfl, hword, Nat.le_trans hle (Nat.le_of_lt hr), Nat.le_trans hle' (Nat.le_of_lt hu)⟩

theorem agree_chosen (chosen : Selector) (h : Relaid s t) :
    Agree s t (.ok (some chosen, skipPathWord s)) (.ok (some chosen, skipPathWord t)) := by
  obtain ⟨hword, hle, hle'⟩ := h.skipPathWord
  exact agree_ok_of hword hle hle'

theorem agree_selector (h : Relaid s t) : Agree s t (selector s) (selector t) := by
  rw [selector, selector]
  refine (blindToken_keyword "ALL" (by decide) h).elim ?_ fun r u hru _ _ => ?_
  · refine (blindToken_keyword "ANY" (by decide) h).elim ?_ fun r u hru _ _ => ?_
    · refine (blindToken_keyword "SHORTEST" (by decide) h).elim (agree_ok h) fun r u hru _ _ => ?_
      rw [isAtDigit_eq hru]
      split
      · refine (agree_integer hru).map fun k r u hru => ?_
        rcases (blindToken_keyword "GROUPS" (by decide) hru).or (blindToken_keyword "GROUP" (by decide) hru) with
          ⟨hs, ht⟩ | ⟨r', u', hs, ht, hru', hr, hu⟩
        · simp only [hs, ht]
          exact agree_chosen _ hru
        · simp only [hs, ht]
          exact (agree_chosen _ hru').mono (Nat.le_of_lt hr) (Nat.le_of_lt hu)
      · exact agree_chosen _ hru
    · refine (blindToken_keyword "SHORTEST" (by decide) hru).elim ?_ fun r u hru _ _ => agree_chosen _ hru
      rw [isAtDigit_eq hru]
      split
      · exact (agree_integer hru).map fun k r u hru => agree_chosen _ hru
      · exact agree_chosen _ hru
  · refine (blindToken_keyword "SHORTEST" (by decide) hru).elim ?_ fun r u hru _ _ => agree_chosen _ hru
    exact agree_chosen _ hru

theorem agree_selectorAndMode (h : Relaid s t) : Agree s t (selectorAndMode s) (selectorAndMode t) := by
  rw [selectorAndMode, selectorAndMode]
  refine (agree_selector h).bind fun chosen r u hru _ _ => ?_
  obtain ⟨m, r', u', hr, hu, hru', hle, hle'⟩ := exists_mode hru
  cases chosen with
  | some chosen =>
    simp only [hr, hu]
    exact agree_ok_of hru' hle hle'
  | none =>
    simp only [hr, hu]
    cases m with
    | some m =>
      refine Agree.mono ?_ hle hle'
      exact (agree_selector hru').bind fun chosen r u hru _ _ => agree_ok hru
    | none => exact agree_ok_of hru' hle hle'

/-! ## Terms -/

theorem agree_group (hinner : Blind k l inner inner') (h : Relaid s t) (hk : s.length < k + 1)
    (hl : t.length < l + 1) : AgreeStrictly s t (group inner s) (group inner' t) := by
  rw [group, group]
  refine (agree_expectChar '(' (by decide) h).bind_strictly fun r u hru hr hu => ?_
  obtain ⟨name, r₁, u₁, hname, hname', hru₁, hle₁, hle₁'⟩ := exists_declaration hru
  obtain ⟨m, r₂, u₂, hmode, hmode', hru₂, hle₂, hle₂'⟩ := exists_mode hru₁
  simp only [hname, hname', hmode, hmode', isAt_eq hru₂]
  refine Agree.mono (r := r₂) (u := u₂) ?_ (by omega) (by omega)
  split
  · exact agree_fail
  · refine (hinner hru₂ (by omega) (by omega)).bind fun body r u hru _ _ => ?_
    refine (agree_condition hru).bind fun c r u hru _ _ => ?_
    exact (agree_expectChar ')' (by decide) hru).bind fun r u hru _ _ => agree_ok hru

theorem agree_repeated (element : Element) (h : Relaid s t) :
    Agree s t (repeated element s) (repeated element t) :=
  (agree_quantifier h).map fun _ _ _ hru => agree_ok hru

/-- A pattern between parentheses is found in both texts, or a node is tried in both. -/
theorem agree_factor (hinner : Blind k l inner inner') (h : Relaid s t) (hk : s.length < k + 1)
    (hl : t.length < l + 1) : AgreeElement s t (factor? inner s) (factor? inner' t) := by
  rw [factor?, factor?, isAt_eq h]
  split
  · rcases agree_group hinner h hk hl with ⟨e, f, hs, ht⟩ | ⟨element, r, u, hs, ht, hru, hr, hu⟩
    · rw [hs, ht]
      exact .inr ⟨_, _, rfl, rfl, (agree_node h).bind fun n r u hru _ _ => agree_ok hru⟩
    · rw [hs, ht]
      exact .inr ⟨_, _, rfl, rfl, (agree_repeated element hru).strictly hr hu⟩
  · rcases agree_edge h with ⟨hs, ht⟩ | ⟨x, y, hs, ht, hxy⟩
    · rw [hs, ht]
      exact .inl ⟨rfl, rfl⟩
    · rw [hs, ht]
      exact .inr ⟨_, _, rfl, rfl, hxy.bind fun e r u hru _ _ => agree_repeated _ hru⟩

theorem blind_term (hinner : Blind k l inner inner') : Blind (k + 1) (l + 1) (term inner) (term inner') := by
  have hfactors : ∀ n m, n ≤ k + 1 → m ≤ l + 1 → Blind n m (factors inner n) (factors inner' m) := by
    refine blind_of_round fun n m hn hm ih s t h hs ht => ?_
    rw [factors, factors]
    rcases agree_factor hinner h (by omega) (by omega) with ⟨hs', ht'⟩ | ⟨x, y, hs', ht', hxy⟩
    · rw [hs', ht']
      exact agree_ok h
    · rw [hs', ht']
      refine (hxy.bind fun f r u hru hr hu => ?_).agree
      exact (ih hru (by omega) (by omega)).bind fun fs r u hru _ _ => agree_ok hru
  intro s t h hk hl
  rw [term, term]
  refine (hfactors _ _ hk hl h (Nat.lt_succ_self _) (Nat.lt_succ_self _)).bind fun fs r u hru _ _ => ?_
  dsimp only
  split
  · exact agree_fail
  · exact agree_ok hru

theorem blindToken_unionBar : BlindToken unionBar := by
  intro s t h
  rw [unionBar, unionBar, (blindToken_text "|+|" (by decide) h).isSome_eq]
  split
  · exact .inl ⟨rfl, rfl⟩
  · exact blindToken_char '|' (by decide) h

theorem blind_pathExprOver (hinner : Blind k l inner inner') :
    Blind (k + 1) (l + 1) (pathExprOver inner) (pathExprOver inner') := by
  intro s t h hk hl
  have hbar : BlindToken (text? "|+|") := blindToken_text "|+|" (by decide)
  rw [pathExprOver, pathExprOver]
  refine (blind_term hinner h hk hl).bind fun first r u hru hr hu => ?_
  have hmultiset := blind_more hbar (blind_term hinner) r.length u.length (by omega) (by omega) hru
    (Nat.lt_succ_self _) (Nat.lt_succ_self _)
  have hunion := blind_more blindToken_unionBar (blind_term hinner) r.length u.length (by omega) (by omega) hru
    (Nat.lt_succ_self _) (Nat.lt_succ_self _)
  rcases hbar hru with ⟨hs, ht⟩ | ⟨r', u', hs, ht, -⟩
  · rcases blindToken_char '|' (by decide) hru with ⟨hs', ht'⟩ | ⟨r', u', hs', ht', -⟩
    · simp only [hs, ht, hs', ht']
      exact agree_ok hru
    · simp only [hs, ht, hs', ht']
      refine hunion.bind fun rest r u hru _ _ => ?_
      simp only [(hbar hru).isSome_eq]
      split
      · exact agree_fail
      · exact agree_ok hru
  · simp only [hs, ht]
    refine hmultiset.bind fun rest r u hru _ _ => ?_
    simp only [isAt_eq hru]
    split
    · exact agree_fail
    · exact agree_ok hru

/-! ## Patterns -/

theorem agree_path (h : Relaid s t) : Agree s t (path s) (path t) := by
  obtain ⟨name, r, u, hs, ht, hru, hr, hu⟩ := exists_declaration h
  rw [path, path]
  simp only [hs, ht]
  refine Agree.mono (r := r) (u := u) ?_ hr hu
  refine (agree_selectorAndMode hru).bind fun ⟨chosen, m⟩ r u hru _ _ => ?_
  have hexpr : Agree r u (pathExprWithin (r.length + 1) r) (pathExprWithin (u.length + 1) u) :=
    blind_of_depth (fun _ _ hinner => blind_pathExprOver hinner) hru
  exact hexpr.bind fun e r u hru _ _ => agree_ok hru

theorem agree_matchMode (h : Relaid s t) : Agree s t (matchMode s) (matchMode t) := by
  rw [matchMode, matchMode]
  refine (blindToken_keyword "REPEATABLE" (by decide) h).elim ?_ fun r u hru _ _ => ?_
  · refine (blindToken_keyword "DIFFERENT" (by decide) h).elim (agree_ok h) fun r u hru _ _ => ?_
    exact (agree_expectKeyword "EDGES" (by decide) hru).bind fun r u hru _ _ => agree_ok hru
  · exact (agree_expectKeyword "ELEMENTS" (by decide) hru).bind fun r u hru _ _ => agree_ok hru

theorem agree_graph (h : Relaid s t) : Agree s t (graph s) (graph t) := by
  rw [graph, graph]
  refine (agree_matchMode h).bind fun m r u hru _ _ => ?_
  have hpath : Blind (r.length + 1) (u.length + 1) path path := fun _ _ h _ _ => agree_path h
  have hpaths := blind_separated (blindToken_char ',' (by decide)) hpath hru (Nat.lt_succ_self _)
    (Nat.lt_succ_self _)
  refine hpaths.bind fun paths r u hru _ _ => ?_
  exact (agree_condition hru).bind fun c r u hru _ _ => agree_ok hru

theorem SameFront.isEmpty_eq (h : SameFront s t) : s.isEmpty = t.isEmpty := by
  cases h <;> rfl

theorem text_eq_ok_iff (h : Relaid s t) (g : GraphPattern) : text s = .ok g ↔ text t = .ok g := by
  have hmatch := ((blindToken_keyword "MATCH" (by decide) h).getD h).1
  rw [text, text]
  rcases agree_graph hmatch with ⟨e, f, hs, ht⟩ | ⟨g', r, u, hs, ht, hru, -, -⟩
  · rw [hs, ht]
    constructor
    · rintro ⟨⟩
    · rintro ⟨⟩
  · have hend := ((blindToken_char ';' (by decide) hru).getD hru).1.front
    rw [hs, ht]
    simp only [ok_bind, hend.isEmpty_eq]
    split
    · exact Iff.rfl
    · constructor
      · rintro ⟨⟩
      · rintro ⟨⟩

end GraphPatterns.Parser

namespace GraphPatterns

theorem GraphPattern.parse_eq_ok_iff {s : String} {g : GraphPattern} :
    parse s = .ok g ↔ Parser.text s.toList = .ok g := by
  rw [parse]
  cases Parser.text s.toList with
  | ok g' => rw [Except.ok.injEq, Except.ok.injEq]
  | error failure =>
    constructor
    · rintro ⟨⟩
    · rintro ⟨⟩

/-- Layout never matters: of two texts that differ in their layout alone both are read, and as the same
pattern, or none is. -/
theorem GraphPattern.parse_relaid {s t : String} (h : Parser.Relaid s.toList t.toList) (g : GraphPattern) :
    parse s = .ok g ↔ parse t = .ok g := by
  rw [parse_eq_ok_iff, parse_eq_ok_iff]
  exact Parser.text_eq_ok_iff h g

/-- A comment gives way to a line of its own, and another one after the sign of a division to a blank. -/
theorem GraphPattern.parse_relaid_comment :
    Parser.Relaid "(a)/* to */->(b) WHERE b.x/ /* two */2 = 1".toList
        "(a)\n// to\n->(b) WHERE b.x/ 2 = 1".toList ∧
      ∃ g : GraphPattern, g.condition = some (.binary .eq
          (.binary .div (.property "b" "x") (.literal (.integer 2))) (.literal (.integer 1))) ∧
        parse "(a)/* to */->(b) WHERE b.x/ /* two */2 = 1" = .ok g ∧
        parse "(a)\n// to\n->(b) WHERE b.x/ 2 = 1" = .ok g := by
  have hto : Parser.IsComment ('/' :: '*' :: (" to ".toList ++ ['*', '/'])) := .block (by decide)
  have htwo : Parser.IsComment ('/' :: '*' :: (" two ".toList ++ ['*', '/'])) := .block (by decide)
  have hline : Parser.IsComment ('/' :: '/' :: (" to".toList ++ ['\n'])) := .line (by decide)
  have hend := (Parser.Relaid.same "2 = 1".toList).layout (.blank (c := ' ') rfl (.comment htwo .nil)) (by decide)
    (.blank (c := ' ') rfl .nil) rfl
  have hslash := hend.char (c := '/') (by decide) (by rintro ⟨-, h | h⟩ <;> cases h)
  have hcondition := hslash.append_left (w := "->(b) WHERE b.x".toList) (by simp [Parser.IsQuote])
  have hrest := hcondition.layout (.comment hto .nil) (by decide) (.blank (c := '\n') rfl (.comment hline .nil)) rfl
  have h : Parser.Relaid "(a)/* to */->(b) WHERE b.x/ /* two */2 = 1".toList
      "(a)\n// to\n->(b) WHERE b.x/ 2 = 1".toList :=
    hrest.append_left (w := "(a)".toList) (by simp [Parser.IsQuote])
  let hop : Term := [.mk (.node { name := some "a" }) none, .mk (.edge ⟨{}, .right, true⟩) none,
    .mk (.node { name := some "b" }) none]
  let g : GraphPattern := ⟨none, [⟨none, none, none, .term hop⟩], some (.binary .eq
    (.binary .div (.property "b" "x") (.literal (.integer 2))) (.literal (.integer 1)))⟩
  have hread : parse "(a)/* to */->(b) WHERE b.x/ /* two */2 = 1" = .ok g := rfl
  exact ⟨h, g, rfl, hread, (parse_relaid h g).mp hread⟩

end GraphPatterns
