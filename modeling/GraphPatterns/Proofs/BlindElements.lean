/-
Parsers of label expressions, fillers, nodes, edges and quantifiers are blind to layout.
-/
import GraphPatterns.Proofs.BlindExprs

namespace GraphPatterns.Parser

variable {s t r u : List Char} {k l : Nat} {inner inner' : Parse LabelExpr}

/-! ## Labels -/

theorem blind_labelFactor (hinner : Blind k l inner inner') : Blind (k + 1) (l + 1)
    (fun s => labelFactor inner (s.length + 1) s) (fun s => labelFactor inner' (s.length + 1) s) := by
  suffices hbound : ∀ n m, n ≤ k + 1 → m ≤ l + 1 → Blind n m (labelFactor inner n) (labelFactor inner' m) from
    fun s t h hs ht => hbound _ _ hs ht h (Nat.lt_succ_self _) (Nat.lt_succ_self _)
  refine blind_of_round fun n m hn hm ih s t h hs ht => ?_
  rw [labelFactor, labelFactor]
  refine (blindToken_char '!' (by decide) h).elim ?_ fun r u hru hr hu => ?_
  · refine (blindToken_char '(' (by decide) h).elim ?_ fun r u hru hr hu => ?_
    · refine (blindToken_char '%' (by decide) h).elim ?_ fun r u hru _ _ => agree_ok hru
      exact (agree_identifier h).map fun name r u hru => agree_ok hru
    · refine (hinner hru (by omega) (by omega)).bind fun e r u hru _ _ => ?_
      exact (agree_expectChar ')' (by decide) hru).bind fun r u hru _ _ => agree_ok hru
  · exact (ih hru (by omega) (by omega)).bind fun e r u hru _ _ => agree_ok hru

theorem blind_labelConjunction (hinner : Blind k l inner inner') :
    Blind (k + 1) (l + 1) (labelConjunction inner) (labelConjunction inner') := by
  intro s t h hk hl
  have hfactors := blind_separated (blindToken_char '&' (by decide)) (blind_labelFactor hinner)
  exact (hfactors h hk hl).map fun es r u hru => agree_ok hru

theorem blind_labelDisjunction (hinner : Blind k l inner inner') :
    Blind (k + 1) (l + 1) (labelDisjunction inner) (labelDisjunction inner') := by
  intro s t h hk hl
  have hconjunctions := blind_separated (blindToken_char '|' (by decide)) (blind_labelConjunction hinner)
  exact (hconjunctions h hk hl).map fun es r u hru => agree_ok hru

theorem agree_labels (h : Relaid s t) : Agree s t (labels s) (labels t) := by
  have hsign := (blindToken_char ':' (by decide) h).or (blindToken_keyword "IS" (by decide) h)
  rw [labels, labels]
  refine hsign.elim (agree_ok h) fun r u hru _ _ => ?_
  have hlabels : Agree r u (labelsWithin (r.length + 1) r) (labelsWithin (u.length + 1) u) :=
    blind_of_depth (fun _ _ hinner => blind_labelDisjunction hinner) hru
  exact hlabels.map fun e r u hru => agree_ok hru

/-! ## Fillers -/

theorem agree_property (h : Relaid s t) : Agree s t (property s) (property t) := by
  rw [property, property]
  refine (agree_identifier h).bind fun key r u hru _ _ => ?_
  refine (agree_expectChar ':' (by decide) hru).bind fun r u hru _ _ => ?_
  exact (agree_value hru).bind fun v r u hru _ _ => agree_ok hru

theorem agree_properties (h : Relaid s t) : Agree s t (properties s) (properties t) := by
  rw [properties, properties]
  refine (blindToken_char '\x7b' (by decide) h).elim (agree_ok h) fun r u hru _ _ => ?_
  have hproperty : Blind (r.length + 1) (u.length + 1) property property := fun s t h _ _ => agree_property h
  refine (agree_itemsUntil '\x7d' hproperty hru (Nat.lt_succ_self _) (Nat.lt_succ_self _)).bind
    fun items r u hru _ _ => ?_
  exact (agree_expectChar '\x7d' (by decide) hru).bind fun r u hru _ _ => agree_ok hru

theorem agree_elementName (h : Relaid s t) : Agree s t (elementName s) (elementName t) := by
  have hwhere := (blindToken_keyword "WHERE" (by decide) h).isSome_eq
  have his := (blindToken_keyword "IS" (by decide) h).isSome_eq
  rw [elementName, elementName, isAtName_eq h, ← Option.not_isSome, ← Option.not_isSome, ← Option.not_isSome,
    ← Option.not_isSome, hwhere, his]
  split
  · exact (agree_identifier h).map fun name r u hru => agree_ok hru
  · exact agree_ok h

theorem agree_filler (h : Relaid s t) : Agree s t (filler s) (filler t) := by
  rw [filler, filler]
  refine (agree_elementName h).bind fun name r u hru _ _ => ?_
  refine (agree_labels hru).bind fun label r u hru _ _ => ?_
  refine (agree_properties hru).bind fun properties r u hru _ _ => ?_
  exact (agree_condition hru).bind fun condition r u hru _ _ => agree_ok hru

theorem agree_node (h : Relaid s t) : AgreeStrictly s t (node s) (node t) := by
  rw [node, node]
  refine (agree_expectChar '(' (by decide) h).bind_strictly fun r u hru _ _ => ?_
  refine (agree_filler hru).bind fun f r u hru _ _ => ?_
  exact (agree_expectChar ')' (by decide) hru).bind fun r u hru _ _ => agree_ok hru

/-! ## Edges -/

theorem isSolidText_of_mem_closings {opening : String} : ∀ w ∈ closings opening, IsSolidText w.1 := by
  rw [closings.eq_def]
  split <;> decide

theorem agree_edge (h : Relaid s t) : AgreeElement s t (edge? s) (edge? t) := by
  have hopenings : BlindChoice (choice? openings) := blindChoice_texts (by decide)
  have harrows : BlindChoice (choice? arrows) := blindChoice_texts (by decide)
  rw [edge?, edge?]
  rcases hopenings h with ⟨hs, ht⟩ | ⟨opening, r, u, hs, ht, hru, hr, hu⟩
  · rw [hs, ht]
    dsimp only
    rcases harrows h with ⟨hs, ht⟩ | ⟨direction, r, u, hs, ht, hru, hr, hu⟩
    · rw [hs, ht]
      exact .inl ⟨rfl, rfl⟩
    · rw [hs, ht]
      exact .inr ⟨_, _, rfl, rfl, (agree_ok hru).strictly hr hu⟩
  · rw [hs, ht]
    refine .inr ⟨_, _, rfl, rfl, Agree.strictly ?_ hr hu⟩
    refine (agree_filler hru).bind fun f r u hru _ _ => ?_
    refine (agree_expectChar ']' (by decide) hru).bind fun r u hru _ _ => ?_
    rcases blindChoice_texts isSolidText_of_mem_closings hru with
      ⟨hr, hu⟩ | ⟨direction, r', u', hr, hu, hru, hlt, hlt'⟩
    · rw [hr, hu]
      exact agree_fail
    · rw [hr, hu]
      exact agree_ok_of hru (Nat.le_of_lt hlt) (Nat.le_of_lt hlt')

/-! ## Quantifiers -/

theorem agree_bounds (h : Relaid s t) : Agree s t (bounds s) (bounds t) := by
  rw [bounds, bounds, isAtDigit_eq h]
  split
  · refine (agree_integer h).bind fun n r u hru _ _ => ?_
    refine (blindToken_char ',' (by decide) hru).elim_none (agree_ok hru) fun r u hru _ _ => ?_
    rw [isAtDigit_eq hru]
    split
    · exact (agree_integer hru).bind fun m _ _ h _ _ => agree_ok h
    · exact agree_ok hru
  · refine (blindToken_char ',' (by decide) h).elim agree_fail fun r u hru _ _ => ?_
    exact (agree_integer hru).map fun m _ _ h => agree_ok h

theorem agree_quantifier (h : Relaid s t) : Agree s t (quantifier s) (quantifier t) := by
  rw [quantifier, quantifier]
  refine (blindToken_char '*' (by decide) h).elim ?_ fun r u hru _ _ => agree_ok hru
  refine (blindToken_char '+' (by decide) h).elim ?_ fun r u hru _ _ => agree_ok hru
  refine (blindToken_char '?' (by decide) h).elim ?_ fun r u hru _ _ => agree_ok hru
  refine (blindToken_char '\x7b' (by decide) h).elim (agree_ok h) fun r u hru _ _ => ?_
  refine (agree_bounds hru).bind fun q r u hru _ _ => ?_
  exact (agree_expectChar '\x7d' (by decide) hru).bind fun r u hru _ _ => agree_ok hru

end GraphPatterns.Parser
