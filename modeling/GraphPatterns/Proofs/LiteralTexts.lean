/-
Which values survive in their texts (`GraphPattern.parse_render_value`): exactly those whose doubles have
fractions and whose texts have neither single quotes nor backslashes. A quote ends the text too early, a
backslash is lost, and a double that is a whole number is read as an integer or not at all.
-/
import GraphPatterns.Proofs.SingleNodes

namespace GraphPatterns

open GraphPatterns.Parser

namespace Parser

variable {s rest : List Char}

/-! ## Strings -/

theorem escaped_eq_backslash {c : Char} (h : escaped c = '\\') : c = '\\' := by
  unfold escaped at h
  split at h
  · exact absurd h (by decide)
  · exact absurd h (by decide)
  · exact absurd h (by decide)
  · exact h

/-- Between quotes a text is not read as itself, after backslashes or without them, if it has a quote or a
backslash in it: every backslash that is read takes two characters. -/
theorem of_stringBody (t : List Char) (k : Nat) {r : List Char}
    (h : stringBody '\'' (t ++ '\'' :: rest) = .ok (List.replicate k '\\' ++ t, r)) :
    k = 0 ∧ '\'' ∉ t ∧ '\\' ∉ t := by
  have hshift (c : Char) (u : List Char) (hc : c = '\\') :
      List.replicate k '\\' ++ c :: u = '\\' :: (List.replicate k '\\' ++ u) := by
    rw [hc, ← List.singleton_append, ← List.append_assoc, ← List.replicate_succ', List.replicate_succ]
    rfl
  cases t with
  | nil =>
    rw [List.nil_append, stringBody.eq_def] at h
    dsimp only at h
    rw [if_pos rfl, List.append_nil] at h
    obtain ⟨hk, -⟩ := Prod.mk.inj (Except.ok.inj h)
    cases k with
    | zero => exact ⟨rfl, List.not_mem_nil, List.not_mem_nil⟩
    | succ k => cases hk
  | cons c t =>
    rw [List.cons_append, stringBody.eq_def] at h
    dsimp only at h
    split at h
    · obtain ⟨hnil, -⟩ := Prod.mk.inj (Except.ok.inj h)
      exact absurd hnil.symm (List.append_ne_nil_of_right_ne_nil _ (List.cons_ne_nil c t))
    · next hquote =>
      split at h
      · next hescape =>
        rw [hshift c t hescape] at h
        -- What is escaped is a backslash, and there is one backslash more before the text after it.
        cases t with
        | nil =>
          obtain ⟨⟨cs, s⟩, -, heq⟩ := Except.map_eq_ok_iff.mp h
          exact absurd (List.cons.inj (Prod.mk.inj heq).1).1 (by decide)
        | cons d t =>
          obtain ⟨⟨cs, s⟩, hcs, heq⟩ := Except.map_eq_ok_iff.mp h
          obtain ⟨hd, htail⟩ := List.cons.inj (Prod.mk.inj heq).1
          have hbackslash := escaped_eq_backslash hd
          have hmore : cs = List.replicate (k + 1) '\\' ++ t := htail.trans (hshift d t hbackslash)
          rw [hmore] at hcs
          exact absurd (of_stringBody t (k + 1) hcs).1 (Nat.succ_ne_zero k)
      · next hescape =>
        obtain ⟨⟨cs, s⟩, hcs, heq⟩ := Except.map_eq_ok_iff.mp h
        cases k with
        | succ k => exact absurd (List.cons.inj (Prod.mk.inj heq).1).1 hescape
        | zero =>
          have htail : cs = t := (List.cons.inj (Prod.mk.inj heq).1).2
          rw [htail] at hcs
          obtain ⟨-, hquotes, hescapes⟩ := of_stringBody t 0 hcs
          refine ⟨rfl, ?_, ?_⟩ <;> simp [hquotes, hescapes, Ne.symm hquote, Ne.symm hescape]
termination_by t.length

/-! ## Values -/

theorem of_number {v : Value} (h : number s = .ok (v, rest)) :
    (∃ x, v = .real x) ∨ ∃ i, v = .integer i := by
  rw [number] at h
  dsimp only at h
  split at h
  · next v' hv =>
    obtain ⟨rfl, -⟩ := Prod.mk.inj (Except.ok.inj h)
    split at hv
    · obtain ⟨x, -, rfl⟩ := Option.map_eq_some_iff.mp hv
      exact .inl ⟨x, rfl⟩
    · obtain ⟨i, -, rfl⟩ := Option.map_eq_some_iff.mp hv
      exact .inr ⟨i, rfl⟩
  · cases h

/-- What kind of value is read tells how it was read. -/
theorem of_valueWithin {depth : Nat} {v : Value} (h : valueWithin (depth + 1) s = .ok (v, rest)) :
    match v with
    | .text t => string? s = some (.ok (t, rest))
    | .real _ => number s = .ok (v, rest)
    | .list items => ∃ s' s'', char? '[' s = some s' ∧
        itemsUntil ']' (valueWithin depth) (s'.length + 1) s' = .ok (items, s'')
    | _ => True := by
  rw [valueWithin] at h
  split at h
  · next result hstring =>
    obtain ⟨⟨t, s'⟩, rfl, heq⟩ := Except.map_eq_ok_iff.mp h
    obtain ⟨rfl, rfl⟩ := Prod.mk.inj heq
    exact hstring
  · split at h
    · rcases of_number h with ⟨x, rfl⟩ | ⟨i, rfl⟩
      · exact h
      · trivial
    · split at h
      · next s' hopen =>
        obtain ⟨⟨items, s''⟩, hitems, h⟩ := Except.bind_eq_ok_iff.mp h
        obtain ⟨s₃, -, heq⟩ := Except.bind_eq_ok_iff.mp h
        obtain ⟨rfl, -⟩ := Prod.mk.inj (Except.ok.inj heq)
        exact ⟨s', s'', hopen, hitems⟩
      · split at h
        · next result hliteral =>
          obtain rfl := Except.ok.inj h
          rcases of_literal? hliteral with rfl | ⟨b, rfl⟩
          · trivial
          · trivial
        · cases h

end Parser

namespace Value

/-- Items are read from the text of a list one by one: each of them is legible if it is read as itself. -/
theorem allLegible_of_itemsUntil {depth : Nat} {items : List Value}
    (hdepth : ∀ v ∈ items, v.render.toList.length ≤ depth)
    (hitem : ∀ v ∈ items, ∀ s rest r, skip s = v.render.toList ++ rest → Closes rest →
      valueWithin depth s = .ok (v, r) → v.Legible)
    {bound : Nat} {s rest r : List Char}
    (hs : skip s = [',', ' '].intercalate (items.map fun v => v.render.toList) ++ ']' :: rest)
    (h : itemsUntil ']' (valueWithin depth) bound s = .ok (items, r)) : AllLegible items := by
  induction items generalizing bound s with
  | nil => trivial
  | cons v items ih =>
    rw [List.forall_mem_cons] at hdepth hitem
    cases bound with
    | zero => cases h
    | succ bound =>
      rw [List.map_cons, intercalate_cons, List.append_assoc] at hs
      have hclose : isAt ']' s = false := (starts_render v).isAt (by simp) hs
      obtain ⟨a, s', as', ha, hcons, -, hmore⟩ := of_itemsUntil_succ hclose h
      obtain ⟨rfl, rfl⟩ := List.cons.inj hcons
      have hcloses : Closes (((items.map fun v => v.render.toList).flatMap ([',', ' '] ++ ·)) ++ ']' :: rest) := by
        cases items with
        | nil => exact .of_cons (by simp) rest
        | cons w items => exact .of_cons (by simp) _
      have hv := hitem.1 s _ s' hs hcloses ha
      refine ⟨hv, ?_⟩
      -- A legible item is read off the text as a whole.
      have hread := (reads v hv hdepth.1).run hs hcloses
      obtain ⟨-, rfl⟩ := Prod.mk.inj (Except.ok.inj (hread.symm.trans ha))
      cases items with
      | nil => trivial
      | cons w items =>
        have hnext : ((w :: items).map fun v => v.render.toList).flatMap ([',', ' '] ++ ·) ++ ']' :: rest =
            ',' :: ' ' :: ([',', ' '].intercalate ((w :: items).map fun v => v.render.toList) ++
              ']' :: rest) := by
          rw [List.map_cons, intercalate_cons, List.flatMap_cons]
          simp only [List.cons_append, List.nil_append, List.append_assoc]
        rw [hnext] at hmore
        refine ih hdepth.2 hitem.2 ?_ (hmore _ rfl)
        rw [skip_space, List.map_cons, intercalate_cons, List.append_assoc]
        exact (starts_render w).skip_append _

mutual

/-- A value that is read as itself from its text is legible. -/
theorem legible_of_valueWithin (v : Value) {depth : Nat} (hdepth : v.render.toList.length ≤ depth)
    {s rest r : List Char} (hs : skip s = v.render.toList ++ rest) (hrest : Closes rest)
    (h : valueWithin depth s = .ok (v, r)) : v.Legible := by
  obtain ⟨depth, rfl⟩ := Nat.exists_eq_add_one_of_ne_zero
    (Nat.ne_zero_of_lt ((starts_render v).length_pos.trans_le hdepth))
  cases v with
  | null => trivial
  | boolean b => trivial
  | integer i => trivial
  | real x => exact hasFraction_of_number hs hrest.ends (of_valueWithin h)
  | text t =>
    have hstring : string? s = some (.ok (t, r)) := of_valueWithin h
    have hskip : skip s = '\'' :: (t.toList ++ '\'' :: rest) := by
      rw [hs, toList_render_text, List.cons_append, List.append_assoc]
      rfl
    rw [string?, hskip] at hstring
    dsimp only at hstring
    rw [if_pos (.inr rfl)] at hstring
    obtain ⟨⟨cs, s'⟩, hbody, heq⟩ := Except.map_eq_ok_iff.mp (Option.some.inj hstring)
    have hcs : cs = t.toList := by
      rw [← (Prod.mk.inj heq).1, String.toList_ofList]
    rw [hcs] at hbody
    exact (of_stringBody t.toList 0 hbody).2
  | list items =>
    have hskip : skip s = '[' :: ([',', ' '].intercalate (items.map fun v => v.render.toList) ++
        ']' :: rest) := by
      rw [hs, toList_render_list, List.cons_append, List.append_assoc]
      rfl
    have hlength := length_item_le hdepth
    obtain ⟨s', s'', hopen, hitems⟩ := of_valueWithin h
    obtain rfl := Option.some.inj ((char?_of_skip hskip).symm.trans hopen)
    have hskip' : skip ([',', ' '].intercalate (items.map fun v => v.render.toList) ++ ']' :: rest) =
        [',', ' '].intercalate (items.map fun v => v.render.toList) ++ ']' :: rest := by
      cases items with
      | nil => rfl
      | cons w items =>
        rw [List.map_cons, intercalate_cons, List.append_assoc]
        exact (starts_render w).skip_append _
    exact allLegible_of_itemsUntil hlength (legibleAll_of_valueWithin items hlength) hskip' hitems

theorem legibleAll_of_valueWithin (items : List Value) {depth : Nat}
    (hdepth : ∀ v ∈ items, v.render.toList.length ≤ depth) :
    ∀ v ∈ items, ∀ s rest r, skip s = v.render.toList ++ rest → Closes rest →
      valueWithin depth s = .ok (v, r) → v.Legible := by
  cases items with
  | nil => exact fun v hv => (List.not_mem_nil hv).elim
  | cons v items =>
    rw [List.forall_mem_cons] at hdepth
    refine List.forall_mem_cons.mpr ⟨?_, legibleAll_of_valueWithin items hdepth.2⟩
    intro s rest r hs hrest h
    exact legible_of_valueWithin v hdepth.1 hs hrest h

end

end Value

/-! ## Nodes -/

namespace Parser

variable {s rest : List Char} {v : Value} {n : NodePattern}

theorem node_property (s : List Char) : node ('(' :: 'a' :: ' ' :: '\x7b' :: s) = do
    let (items, s) ← itemsUntil '\x7d' property (s.length + 1) s
    let s ← expectChar '\x7d' s
    let (condition, s) ← condition s
    let s ← expectChar ')' s
    return (⟨some "a", none, items, condition⟩, s) := by
  have hopen (s : List Char) : expectChar '(' ('(' :: s) = .ok s := rfl
  have hname : elementName ('a' :: ' ' :: '\x7b' :: s) = .ok (some "a", ' ' :: '\x7b' :: s) := rfl
  have hlabels : labels (' ' :: '\x7b' :: s) = .ok (none, ' ' :: '\x7b' :: s) := rfl
  have hbrace : char? '\x7b' (' ' :: '\x7b' :: s) = some s := rfl
  rw [node, hopen, ok_bind, filler, hname, ok_bind]
  dsimp only
  rw [hlabels, ok_bind]
  dsimp only
  rw [properties, hbrace]
  dsimp only
  cases itemsUntil '\x7d' property (s.length + 1) s with
  | error failure => rfl
  | ok found =>
    rw [ok_bind, ok_bind]
    cases expectChar '\x7d' found.2 with
    | error failure => rfl
    | ok s =>
      rw [ok_bind, ok_bind, pure_bind]
      dsimp only
      cases condition s <;> rfl

theorem property_value (s : List Char) :
    property ('k' :: ':' :: s) = (value s).map fun (v, s) => (("k", v), s) := by
  have hkey : identifier ('k' :: ':' :: s) = .ok ("k", ':' :: s) := rfl
  have hcolon : expectChar ':' (':' :: s) = .ok s := rfl
  rw [property, hkey, ok_bind]
  dsimp only
  rw [hcolon, ok_bind]
  cases value s <;> rfl

theorem node_of_value (h : value s = .ok (v, ['\x7d', ')'])) :
    node ('(' :: 'a' :: ' ' :: '\x7b' :: 'k' :: ':' :: s) =
      .ok ({ name := some "a", properties := [("k", v)] }, []) := by
  have hkey : isAt '\x7d' ('k' :: ':' :: s) = false := rfl
  rw [node_property, itemsUntil, hkey, if_neg Bool.false_ne_true, property_value, h]
  rfl

/-- The value of the property is the one that was read after the colon. -/
theorem of_node_value (h : node ('(' :: 'a' :: ' ' :: '\x7b' :: 'k' :: ':' :: s) = .ok (n, rest))
    (hn : n.properties = [("k", v)]) : ∃ s', value s = .ok (v, s') := by
  have hkey : isAt '\x7d' ('k' :: ':' :: s) = false := rfl
  rw [node_property] at h
  obtain ⟨⟨items, s₁⟩, hitems, h⟩ := Except.bind_eq_ok_iff.mp h
  obtain ⟨s₂, -, h⟩ := Except.bind_eq_ok_iff.mp h
  obtain ⟨⟨c, s₃⟩, -, h⟩ := Except.bind_eq_ok_iff.mp h
  obtain ⟨s₄, -, heq⟩ := Except.bind_eq_ok_iff.mp h
  obtain rfl : items = [("k", v)] :=
    (congrArg Filler.properties (Prod.mk.inj (Except.ok.inj heq)).1).trans hn
  obtain ⟨p, s₅, ps, hp, hcons, -⟩ := of_itemsUntil_succ hkey hitems
  obtain ⟨rfl, -⟩ := List.cons.inj hcons
  rw [property_value] at hp
  obtain ⟨⟨v', s'⟩, hv, heq⟩ := Except.map_eq_ok_iff.mp hp
  obtain ⟨hpair, -⟩ := Prod.mk.inj heq
  obtain rfl : v' = v := (Prod.mk.inj hpair).2
  exact ⟨s', hv⟩

end Parser

theorem Value.toList_propertyText (v : Value) : ("(a \x7bk: " ++ v.render ++ "\x7d)").toList =
    '(' :: 'a' :: ' ' :: '\x7b' :: 'k' :: ':' :: ' ' :: (v.render.toList ++ ['\x7d', ')']) := by
  simp [String.toList_append]

theorem Parser.opensNode_property (r : List Char) : OpensNode ('a' :: ' ' :: '\x7b' :: r) :=
  fun _ => ⟨_, rfl⟩

namespace GraphPattern

theorem parse_property_of_legible {v : Value} (hv : v.Legible) :
    parse ("(a \x7bk: " ++ v.render ++ "\x7d)") =
      .ok (.single { name := some "a", properties := [("k", v)] }) := by
  have hvalue := (Value.reads_value hv).run_space (.of_cons (by simp) _ : Closes ['\x7d', ')'])
  rw [parse, v.toList_propertyText, text_node (opensNode_property _) (node_of_value hvalue)]

theorem legible_of_parse_property {v : Value} (h : parse ("(a \x7bk: " ++ v.render ++ "\x7d)") =
    .ok (.single { name := some "a", properties := [("k", v)] })) : v.Legible := by
  have hskip : skip (' ' :: (v.render.toList ++ ['\x7d', ')'])) = v.render.toList ++ ['\x7d', ')'] :=
    v.starts_render.skip_append _
  rw [parse, v.toList_propertyText] at h
  split at h
  · next g hg =>
    obtain rfl := Except.ok.inj h
    obtain ⟨rest, hn⟩ := of_text_single (opensNode_property _) hg
    obtain ⟨s', hv⟩ := of_node_value hn rfl
    refine v.legible_of_valueWithin ?_ hskip (.of_cons (by simp) _) hv
    simp only [List.length_cons, List.length_append]
    omega
  · cases h

/-- **Values in patterns.** The text of a value, written as a property of a node, is read as that property
exactly if the value is legible. -/
theorem parse_render_value (v : Value) : parse ("(a \x7bk: " ++ v.render ++ "\x7d)") =
    .ok (.single { name := some "a", properties := [("k", v)] }) ↔ v.Legible :=
  ⟨legible_of_parse_property, parse_property_of_legible⟩

/-- A quote in a text is written as it is, and ends the text where it is read. -/
theorem parse_render_value_quote :
    parse "(a \x7bk: \"it's\"\x7d)" =
        .ok (.single { name := some "a", properties := [("k", .text "it's")] }) ∧
      parse ("(a \x7bk: " ++ (Value.text "it's").render ++ "\x7d)") ≠
        .ok (.single { name := some "a", properties := [("k", .text "it's")] }) := by
  have hvalue : value [' ', '"', 'i', 't', '\'', 's', '"', '\x7d', ')'] =
      .ok (.text "it's", ['\x7d', ')']) := rfl
  have htext : "(a \x7bk: \"it's\"\x7d)".toList =
      '(' :: 'a' :: ' ' :: '\x7b' :: 'k' :: ':' :: [' ', '"', 'i', 't', '\'', 's', '"', '\x7d', ')'] := by
    simp
  refine ⟨by rw [parse, htext, text_node (opensNode_property _) (node_of_value hvalue)], ?_⟩
  intro h
  exact (legible_of_parse_property h).1 (by simp)

end GraphPattern

end GraphPatterns
