/-
Properties that are asked for, and conditions that ask for them. A value that is stored is compared with
one that is asked for in two ways: by `Value.looseEq`, under which null equals null, and by an equation,
which null leaves open. The two agree as long as there is no null in what is asked for
(`Datum.equal_ofValue`), and then asking for a property is asking for an equation
(`Filler.admits_equation`). A property that is null is never admitted, but a list that has null in it
is, although the equation does not hold of it (`Filler.admits_listOfNull`).
-/
import GraphPatterns.Graph.Basic
import GraphPatterns.Matching.Thread
import GraphPatterns.Proofs.Equality

namespace GraphPatterns

/-! ## Values -/

namespace Value

mutual

/-- Whether null stands somewhere in a value. -/
def hasNull : Value → Bool
  | .null => true
  | .list items => anyHasNull items
  | _ => false

def anyHasNull : List Value → Bool
  | [] => false
  | v :: rest => hasNull v || anyHasNull rest

end

theorem isNull_of_hasNull {v : Value} (h : v.hasNull = false) : v.isNull = false := by
  cases v with
  | null => cases h
  | _ => rfl

end Value

namespace Datum

mutual

/-- An equation between values holds if they are equal and there is no null in them. -/
theorem equal_ofValue : ∀ u v : Value,
    equal (ofValue u) (ofValue v) = some true ↔ u.looseEq v = true ∧ v.hasNull = false
  | .null, v => by
    cases v <;> simp [ofValue, equal, Value.looseEq, Value.hasNull]
  | .list us, v => by
    cases v with
    | list vs =>
      rw [ofValue, ofValue, Value.looseEq, Value.hasNull]
      exact equal_ofValues us vs
    | _ => simp [ofValue, equal, Value.looseEq]
  | .boolean a, v | .integer a, v | .real a, v | .text a, v => by
    cases v <;> simp [ofValue, equal, Value.looseEq, Value.hasNull]

theorem equal_ofValues : ∀ us vs : List Value,
    equal (.list (ofValues us)) (.list (ofValues vs)) = some true ↔
      Value.looseEqList us vs = true ∧ Value.anyHasNull vs = false
  | [], [] => by simp [ofValues, equal, equalItems, Value.looseEqList, Value.anyHasNull]
  | [], _ :: _ => by simp [ofValues, equal, Value.looseEqList]
  | _ :: _, [] => by simp [ofValues, equal, Value.looseEqList]
  | u :: us, v :: vs => by
    rw [ofValues, ofValues, equal_list_cons, conjunction_eq_true_iff, equal_ofValue u v,
      equal_ofValues us vs, Value.looseEqList, Value.anyHasNull, Bool.and_eq_true, Bool.or_eq_false_iff]
    exact and_and_and_comm

end

end Datum

/-! ## Conditions -/

namespace Expr

theorem holds_and (store : Store) (scope : Scope) (a b : Expr) :
    (binary .and a b).holds store scope = (a.holds store scope && b.holds store scope) := by
  rw [Bool.eq_iff_iff, Bool.and_eq_true, holds_iff, eval, Datum.binary, ← Datum.truth_eq_some_iff,
    Datum.truth_ofTruth, Datum.conjunction_eq_true_iff, Datum.truth_eq_some_iff,
    Datum.truth_eq_some_iff, holds_iff, holds_iff]

theorem eval_property_candidate (store : Store) (bindings seed : Bindings) (own key : String)
    (x : ElementId) (latest : Bool) :
    (property own key).eval store ⟨bindings, seed, some (own, x), latest⟩ =
      Datum.ofProperty.read store key x := by
  have hlookup : Scope.lookup ⟨bindings, seed, some (own, x), latest⟩ own = some (.ofElement x) :=
    if_pos rfl
  rw [eval, hlookup]
  cases x <;> rfl

end Expr

/-! ## Fillers -/

/-- Whether an element has a property that is equal to a value, null being equal to nothing. -/
def Store.hasEqual (store : Store) (x : ElementId) (key : String) (v : Value) : Bool :=
  ((store.properties? x).bind (·.get? key)).any fun there => !v.isNull && there.looseEq v

theorem admitsProperties_concat (asked : List (String × Value)) (key : String) (v : Value)
    (store : Store) (x : ElementId) :
    admitsProperties (asked ++ [(key, v)]) store x =
      (admitsProperties asked store x && store.hasEqual x key v) := by
  unfold admitsProperties Store.hasEqual
  cases store.properties? x with
  | none => simp
  | some there =>
    have hlast : ((some there).bind (·.get? key)).any (fun u => !v.isNull && u.looseEq v) =
        (!v.isNull && (there.get? key).any (·.looseEq v)) := by
      rw [Option.bind_some]
      cases there.get? key with
      | none => exact (Bool.and_false _).symm
      | some u => rfl
    rw [hlast]
    cases asked <;> simp [Bool.and_assoc]

/-- An equation with a value holds of an element that has the property, if there is no null in the
value. -/
theorem Expr.holds_equation (store : Store) (bindings seed : Bindings) (own key : String) (v : Value)
    (x : ElementId) (latest : Bool) :
    (binary .eq (.property own key) (.literal v)).holds store ⟨bindings, seed, some (own, x), latest⟩ =
      (store.hasEqual x key v && !v.hasNull) := by
  rw [Bool.eq_iff_iff, holds_iff, eval_eq, eval_property_candidate, eval, ← Datum.truth_eq_some_iff,
    Datum.truth_ofTruth, Datum.ofProperty.read, Store.hasEqual, Bool.and_eq_true, Bool.not_eq_true']
  cases (store.properties? x).bind (·.get? key) with
  | none =>
    constructor
    · intro h
      cases h
    · rintro ⟨h, -⟩
      cases h
  | some u =>
    rw [Option.any_some, Bool.and_eq_true, Bool.not_eq_true']
    constructor
    · intro h
      obtain ⟨hequal, hnull⟩ := (Datum.equal_ofValue u v).mp h
      exact ⟨⟨Value.isNull_of_hasNull hnull, hequal⟩, hnull⟩
    · exact fun h => (Datum.equal_ofValue u v).mpr ⟨h.1.2, h.2⟩

namespace Filler

/-- The filler that asks for a further property. -/
def withProperty (f : Filler) (key : String) (v : Value) : Filler :=
  { f with properties := f.properties ++ [(key, v)] }

/-- The filler that asks for a further condition. -/
def withCondition (f : Filler) (e : Expr) : Filler :=
  { f with condition := match f.condition with
      | some c => some (.binary .and c e)
      | none => some e }

variable {f : Filler} {env : Env} {bindings : Bindings} {grouped : Bool} {taken : Option ElementId}
  {x : ElementId}

theorem admits_withProperty (key : String) (v : Value) :
    (f.withProperty key v).admits env bindings grouped taken x =
      (f.admits env bindings grouped taken x && env.store.hasEqual x key v) := by
  have hagrees : (f.withProperty key v).agrees env bindings grouped taken x =
    f.agrees env bindings grouped taken x := rfl
  rw [admits, admits, hagrees, withProperty, admitsProperties_concat]
  ac_rfl

theorem admits_withCondition (e : Expr) :
    (f.withCondition e).admits env bindings grouped taken x =
      (f.admits env bindings grouped taken x &&
        e.holds env.store ⟨bindings, env.seed, f.name.map (·, x), grouped⟩) := by
  have hagrees : (f.withCondition e).agrees env bindings grouped taken x =
    f.agrees env bindings grouped taken x := rfl
  rw [admits, admits, hagrees, withCondition]
  cases f.condition with
  | none => simp
  | some c => simp [Expr.holds_and, Bool.and_assoc]

/-- **Asking for a property is asking for an equation, but for null.** The condition that a property is
equal to a value admits what asking for the property admits, if there is no null in the value; if there
is, it admits nothing. -/
theorem admits_equation {own : String} (hname : f.name = some own) (key : String) (v : Value)
    (env : Env) (bindings : Bindings) (grouped : Bool) (taken : Option ElementId) (x : ElementId) :
    (f.withCondition (.binary .eq (.property own key) (.literal v))).admits env bindings grouped taken x =
      ((f.withProperty key v).admits env bindings grouped taken x && !v.hasNull) := by
  rw [admits_withCondition, admits_withProperty, hname, Option.map_some, Expr.holds_equation,
    Bool.and_assoc]

/-- An element with a list of the kind that is asked for is admitted, and under the equation as well. -/
theorem admits_equation_list :
    let f : Filler := { name := some "x" }
    let v : Value := .list [.integer 1, .list [.text "a"]]
    let env : Env := ⟨(Graph.empty.addVertex [] [("k", v)]).2.store, {}, []⟩
    f.name = some "x" ∧ v.hasNull = false ∧
      (f.withProperty "k" v).admits env [] false none (.vertex ⟨1⟩) = true ∧
      (f.withCondition (.binary .eq (.property "x" "k") (.literal v))).admits env [] false none
        (.vertex ⟨1⟩) = true := by
  intro f v env
  have hadmits : (f.withProperty "k" v).admits env [] false none (.vertex ⟨1⟩) = true := rfl
  have hequation := admits_equation (rfl : f.name = some "x") "k" v env [] false none (.vertex ⟨1⟩)
  exact ⟨rfl, rfl, hadmits, hequation.trans (by rw [hadmits]; rfl)⟩

/-- A list with null in it is found by what it is, although it is not known to be equal to itself. -/
theorem admits_listOfNull :
    let f : Filler := { name := some "x" }
    let v : Value := .list [.integer 1, .null]
    let env : Env := ⟨(Graph.empty.addVertex [] [("k", v)]).2.store, {}, []⟩
    (f.withProperty "k" v).admits env [] false none (.vertex ⟨1⟩) = true ∧
      (f.withCondition (.binary .eq (.property "x" "k") (.literal v))).admits env [] false none
        (.vertex ⟨1⟩) = false :=
  ⟨rfl, rfl⟩

end Filler

end GraphPatterns
