/-
Ordered associations: lists of pairs in which a key stands once. Writing to a key that is there keeps
its place, and a new key comes last; so the order of the keys is the order in which they were first
written. `get?_insert` and `keys_insert` say what writing does to look-up and to the keys.
-/

namespace GraphPatterns

/-- A list of pairs that is searched by the first component. -/
abbrev Assoc (κ α : Type) := List (κ × α)

namespace Assoc

variable {κ α : Type} [DecidableEq κ]

/-- The value of a key. -/
def get? : Assoc κ α → κ → Option α
  | [], _ => none
  | (k, v) :: rest, key => if k = key then some v else get? rest key

/-- Writes a value: in place when the key is there, at the end otherwise. -/
def insert : Assoc κ α → κ → α → Assoc κ α
  | [], key, value => [(key, value)]
  | (k, v) :: rest, key, value =>
    if k = key then (k, value) :: rest else (k, v) :: insert rest key value

/-- Removes a key. -/
def erase : Assoc κ α → κ → Assoc κ α
  | [], _ => []
  | (k, v) :: rest, key => if k = key then rest else (k, v) :: erase rest key

/-- The keys, in order. -/
def keys (m : Assoc κ α) : List κ := m.map (·.1)

/-- Whether a key is there. -/
def has (m : Assoc κ α) (key : κ) : Bool := (m.get? key).isSome

/-- Writes a value unless the key is there. -/
def insertNew (m : Assoc κ α) (key : κ) (value : α) : Assoc κ α :=
  if m.has key then m else m ++ [(key, value)]

/-- The pairs of a list, each written in turn. -/
def ofList (pairs : List (κ × α)) : Assoc κ α :=
  pairs.foldl (fun m p => m.insert p.1 p.2) []

/-! ## Look-up after writing -/

theorem get?_insert (m : Assoc κ α) (key other : κ) (value : α) :
    (m.insert key value).get? other = if key = other then some value else m.get? other := by
  induction m with
  | nil => simp [insert, get?]
  | cons p m ih =>
    obtain ⟨k, v⟩ := p
    by_cases h : k = key
    · subst h
      by_cases ho : k = other <;> simp [insert, get?, ho]
    · by_cases ho : k = other
      · subst ho
        simp [insert, get?, h, Ne.symm h]
      · simp [insert, get?, h, ho, ih]

theorem get?_append (m n : Assoc κ α) (key : κ) :
    get? (m ++ n) key = (m.get? key).or (n.get? key) := by
  induction m with
  | nil => simp [get?]
  | cons p m ih =>
    obtain ⟨k, v⟩ := p
    by_cases h : k = key <;> simp [get?, h, ih]

theorem get?_insertNew (m : Assoc κ α) (key other : κ) (value : α) :
    (m.insertNew key value).get? other =
      if m.has key = false ∧ key = other then some value else m.get? other := by
  unfold insertNew
  by_cases hk : m.has key = true
  · simp [hk]
  · simp only [hk, Bool.false_eq_true, if_false, get?_append, get?, true_and]
    by_cases h : key = other
    · subst h
      have hn : m.get? key = none := by simpa [has] using hk
      simp [hn]
    · simp [h]

theorem get?_map {β : Type} (m : Assoc κ α) (f : α → β) (key : κ) :
    get? (m.map fun p => (p.1, f p.2)) key = (m.get? key).map f := by
  induction m with
  | nil => rfl
  | cons p m ih =>
    obtain ⟨k, v⟩ := p
    by_cases h : k = key <;> simp [get?, h, ih]

omit [DecidableEq κ] in
theorem keys_map {β : Type} (m : Assoc κ α) (f : α → β) :
    keys (m.map fun p => (p.1, f p.2)) = m.keys := by
  simp [keys]

theorem mem_of_get? {m : Assoc κ α} {key : κ} {value : α} (h : m.get? key = some value) :
    (key, value) ∈ m := by
  induction m with
  | nil => cases h
  | cons p m ih =>
    obtain ⟨k, v⟩ := p
    by_cases hk : k = key
    · simp only [get?, hk, if_true, Option.some.injEq] at h
      simp [hk, h]
    · simp only [get?, hk, if_false] at h
      exact List.mem_cons_of_mem _ (ih h)

theorem get?_of_mem {m : Assoc κ α} (h : m.keys.Nodup) {key : κ} {value : α} (hmem : (key, value) ∈ m) :
    m.get? key = some value := by
  induction m with
  | nil => cases hmem
  | cons p m ih =>
    obtain ⟨k, v⟩ := p
    obtain ⟨hnew, hnodup⟩ := List.nodup_cons.mp h
    rcases List.mem_cons.mp hmem with heq | hmem
    · cases heq
      simp [get?]
    · have hkey : key ∈ keys m := List.mem_map_of_mem hmem
      have hne : k ≠ key := fun heq => hnew (heq ▸ hkey)
      rw [get?, if_neg hne, ih hnodup hmem]

theorem mem_insert {m : Assoc κ α} {key : κ} {value : α} {p : κ × α} (h : p ∈ m.insert key value) :
    p = (key, value) ∨ p ∈ m := by
  induction m with
  | nil => exact .inl (List.mem_singleton.mp h)
  | cons q m ih =>
    obtain ⟨k, v⟩ := q
    rw [insert] at h
    split at h
    · next hk =>
      subst hk
      exact (List.mem_cons.mp h).imp_right (List.mem_cons_of_mem _)
    · rcases List.mem_cons.mp h with rfl | h
      · exact .inr List.mem_cons_self
      · exact (ih h).imp_right (List.mem_cons_of_mem _)

theorem mem_insert_of_ne {m : Assoc κ α} {key : κ} {value : α} {p : κ × α} (hne : p.1 ≠ key)
    (hp : p ∈ m) : p ∈ m.insert key value := by
  induction m with
  | nil => cases hp
  | cons q m ih =>
    obtain ⟨k, v⟩ := q
    rw [insert]
    rcases List.mem_cons.mp hp with rfl | hp
    · rw [if_neg hne]
      exact List.mem_cons_self
    · split
      · exact List.mem_cons_of_mem _ hp
      · exact List.mem_cons_of_mem _ (ih hp)

theorem mem_insertNew {m : Assoc κ α} {key : κ} {value : α} {p : κ × α}
    (h : p ∈ m.insertNew key value) : p = (key, value) ∨ p ∈ m := by
  unfold insertNew at h
  split at h
  · exact .inr h
  · exact (List.mem_append.mp h).symm.imp_left List.mem_singleton.mp

theorem mem_foldl_insertNew {β : Type} {key : β → κ} {value : β → α} {vs : List β} {m : Assoc κ α}
    {p : κ × α} (h : p ∈ vs.foldl (fun m v => m.insertNew (key v) (value v)) m) :
    p ∈ m ∨ ∃ v ∈ vs, p = (key v, value v) := by
  induction vs generalizing m with
  | nil => exact .inl h
  | cons v vs ih =>
    rcases ih h with h | ⟨w, hw, rfl⟩
    · rcases mem_insertNew h with rfl | h
      · exact .inr ⟨v, List.mem_cons_self, rfl⟩
      · exact .inl h
    · exact .inr ⟨w, List.mem_cons_of_mem _ hw, rfl⟩

theorem has_iff_mem_keys (m : Assoc κ α) (key : κ) : m.has key = true ↔ key ∈ m.keys := by
  induction m with
  | nil => simp [has, get?, keys]
  | cons p m ih =>
    obtain ⟨k, v⟩ := p
    by_cases h : k = key
    · simp [has, get?, keys, h]
    · have hc : has ((k, v) :: m) key = has m key := by simp [has, get?, h]
      rw [hc, ih]
      simp [keys, Ne.symm h]

theorem get?_eq_none_iff {m : Assoc κ α} {key : κ} : m.get? key = none ↔ key ∉ m.keys := by
  rw [← has_iff_mem_keys, has, Bool.not_eq_true, Option.isSome_eq_false_iff, Option.isNone_iff_eq_none]

/-- Writing adds its key at the end, or leaves the keys as they are. -/
theorem keys_insert (m : Assoc κ α) (key : κ) (value : α) :
    (m.insert key value).keys = if key ∈ m.keys then m.keys else m.keys ++ [key] := by
  induction m with
  | nil => simp [insert, keys]
  | cons p m ih =>
    obtain ⟨k, v⟩ := p
    by_cases h : k = key
    · subst h
      simp [insert, keys]
    · have hk : key ∈ keys ((k, v) :: m) ↔ key ∈ keys m := by simp [keys, Ne.symm h]
      simp only [insert, h, if_false, hk]
      have : keys ((k, v) :: insert m key value) = k :: keys (insert m key value) := rfl
      rw [this, ih]
      split <;> simp [keys]

theorem mem_keys_insertNew {m : Assoc κ α} {key other : κ} {value : α} :
    other ∈ (m.insertNew key value).keys ↔ key = other ∨ other ∈ m.keys := by
  unfold insertNew
  split
  · next hk =>
    rw [has_iff_mem_keys] at hk
    exact ⟨.inr, fun h => h.elim (fun heq => heq ▸ hk) id⟩
  · simp [keys, or_comm, eq_comm]

theorem mem_keys_foldl_insertNew {β : Type} {key : β → κ} {value : β → α} {vs : List β} {m : Assoc κ α}
    {other : κ} : other ∈ (vs.foldl (fun m v => m.insertNew (key v) (value v)) m).keys ↔
      other ∈ m.keys ∨ ∃ v ∈ vs, key v = other := by
  induction vs generalizing m with
  | nil => simp
  | cons v vs ih =>
    rw [List.foldl_cons, ih, mem_keys_insertNew, or_assoc, or_left_comm]
    simp only [List.mem_cons, exists_eq_or_imp]

theorem mem_keys_insert {m : Assoc κ α} {key other : κ} {value : α} :
    other ∈ (m.insert key value).keys ↔ key = other ∨ other ∈ m.keys := by
  rw [keys_insert]
  split
  · next hk => exact ⟨.inr, fun h => h.elim (fun heq => heq ▸ hk) id⟩
  · simp [or_comm, eq_comm]

theorem nodup_keys_insert {m : Assoc κ α} (h : m.keys.Nodup) (key : κ) (value : α) :
    (m.insert key value).keys.Nodup := by
  rw [keys_insert]
  split
  · exact h
  · next hk =>
    rw [List.nodup_append]
    exact ⟨h, by simp, fun a ha b hb heq => hk (List.mem_singleton.mp hb ▸ heq ▸ ha)⟩

theorem nodup_keys_insertNew {m : Assoc κ α} (h : m.keys.Nodup) (key : κ) (value : α) :
    (m.insertNew key value).keys.Nodup := by
  unfold insertNew
  split
  · exact h
  · next hk =>
    rw [has_iff_mem_keys] at hk
    have hkeys : keys (m ++ [(key, value)]) = m.keys ++ [key] := List.map_append
    rw [hkeys, List.nodup_append]
    exact ⟨h, by simp, fun a ha b hb heq => hk (List.mem_singleton.mp hb ▸ heq ▸ ha)⟩

theorem insert_append {m : Assoc κ α} {key : κ} (h : m.get? key = none) (n : Assoc κ α) (value : α) :
    insert (m ++ n) key value = m ++ n.insert key value := by
  induction m with
  | nil => rfl
  | cons p m ih =>
    obtain ⟨k, v⟩ := p
    by_cases hk : k = key
    · simp [get?, hk] at h
    · simp only [get?, hk, if_false] at h
      simp [insert, hk, ih h]

theorem insert_of_get?_none {m : Assoc κ α} {key : κ} (h : m.get? key = none) (value : α) :
    m.insert key value = m ++ [(key, value)] := by
  have happend := insert_append h [] value
  rwa [List.append_nil] at happend

theorem insertNew_of_get?_none {m : Assoc κ α} {key : κ} (h : m.get? key = none) (value : α) :
    m.insertNew key value = m ++ [(key, value)] := by
  simp [insertNew, has, h]

theorem insertNew_of_get? {m : Assoc κ α} {key : κ} {there : α} (h : m.get? key = some there)
    (value : α) : m.insertNew key value = m := by
  simp [insertNew, has, h]

/-- Writing what is there changes nothing. -/
theorem insert_of_get? {m : Assoc κ α} {key : κ} {value : α} (h : m.get? key = some value) :
    m.insert key value = m := by
  induction m with
  | nil => cases h
  | cons p m ih =>
    obtain ⟨k, v⟩ := p
    by_cases hk : k = key
    · simp only [get?, hk, if_true, Option.some.injEq] at h
      simp [insert, hk, h]
    · simp only [get?, hk, if_false] at h
      simp [insert, hk, ih h]

theorem mem_keys_ofList {pairs : List (κ × α)} {key : κ} : key ∈ (ofList pairs).keys ↔ key ∈ keys pairs := by
  have hfold (m : Assoc κ α) :
      key ∈ (pairs.foldl (fun m p => m.insert p.1 p.2) m).keys ↔ key ∈ m.keys ∨ key ∈ keys pairs := by
    induction pairs generalizing m with
    | nil => simp [keys]
    | cons p pairs ih =>
      rw [List.foldl_cons, ih, mem_keys_insert, or_assoc, or_left_comm]
      simp only [keys, List.map_cons, List.mem_cons, eq_comm]
  exact (hfold []).trans (or_iff_right nofun)

/-- Pairs in which no key stands twice stay as they are. -/
theorem ofList_of_nodup {pairs : List (κ × α)} (h : (keys pairs).Nodup) : ofList pairs = pairs := by
  have key (m : Assoc κ α) (hnew : (keys (m ++ pairs)).Nodup) :
      pairs.foldl (fun m p => m.insert p.1 p.2) m = m ++ pairs := by
    clear h
    induction pairs generalizing m with
    | nil => exact (List.append_nil m).symm
    | cons p pairs ih =>
      have happend : m ++ p :: pairs = (m ++ [p]) ++ pairs := by simp
      have habsent : m.get? p.1 = none := by
        rw [get?_eq_none_iff]
        rw [keys, List.map_append, List.map_cons] at hnew
        exact fun hp => (List.nodup_append.mp hnew).2.2 _ hp _ List.mem_cons_self rfl
      rw [List.foldl_cons, insert_of_get?_none habsent, happend]
      exact ih _ (happend ▸ hnew)
  exact key [] h

/-! ## Choosing by key -/

theorem get?_filter (m : Assoc κ α) (keep : κ → Bool) (key : κ) :
    get? (m.filter fun p => keep p.1) key = if keep key then m.get? key else none := by
  induction m with
  | nil => simp [get?]
  | cons p m ih =>
    obtain ⟨k, v⟩ := p
    by_cases hk : k = key
    · subst hk
      by_cases hkeep : keep k = true <;> simp [get?, hkeep, ih]
    · by_cases hkeep : keep k = true <;> simp [get?, hk, hkeep, ih]

theorem filter_insert (m : Assoc κ α) (keep : κ → Bool) {key : κ} (h : keep key = true) (value : α) :
    (m.insert key value).filter (fun p => keep p.1) = insert (m.filter fun p => keep p.1) key value := by
  induction m with
  | nil => simp [insert, h]
  | cons p m ih =>
    obtain ⟨k, v⟩ := p
    by_cases hk : k = key
    · subst hk
      simp [insert, h]
    · by_cases hkeep : keep k = true <;> simp [insert, hk, hkeep, ih]

end Assoc

end GraphPatterns
