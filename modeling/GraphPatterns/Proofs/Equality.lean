/-
Equality of data, in three-valued logic. Two lists of one length are equal as far as all pairs of their
items are (`Datum.equal_list`), a list has a member as far as any of its items is equal to it
(`Datum.member_eq`), and it does not matter which of two data is named first (`Datum.equal_comm`). So an
equation between lists is the conjunction of the equations between their items, and membership is a
disjunction of equations (`Expr.eval_equations`): null and the item that decides may stand anywhere.
-/
import GraphPatterns.Graph.Basic
import GraphPatterns.Matching.Eval

namespace GraphPatterns

/-! ## Doubles -/

namespace Number

open Float.Model (UnpackedFloat)

/-- The order of two doubles, seen from the other one. -/
theorem compare_swap (x y : UnpackedFloat) : y.compare x = (x.compare y).map Ordering.swap := by
  cases x with
  | notANumber => cases y <;> rfl
  | infinity s =>
    cases y with
    | infinity t => cases s <;> cases t <;> rfl
    | _ => cases s <;> rfl
  | zero s =>
    cases y with
    | infinity t => cases t <;> rfl
    | finite t => cases t <;> rfl
    | _ => rfl
  | finite s m e =>
    cases y with
    | infinity t => cases s <;> cases t <;> rfl
    | finite t n f =>
      have hmagnitude : (compare f e).then (compare n m) = ((compare e f).then (compare m n)).swap := by
        rw [Ordering.swap_then, ← Std.OrientedOrd.eq_swap, ← Std.OrientedOrd.eq_swap]
      cases s with
      | positive =>
        cases t with
        | positive => exact congrArg some hmagnitude
        | negative => rfl
      | negative =>
        cases t with
        | positive => rfl
        | negative => exact congrArg (fun o => some o.swap) hmagnitude
    | _ => cases s <;> rfl

/-- Equality of doubles is no equivalence, for it leaves out what is not a number; but it is symmetric. -/
theorem beq_comm (x y : Float) : (x == y) = (y == x) := by
  have hx : (x == y) = (x.toModel.unpack.compare y.toModel.unpack == some .eq) := rfl
  have hy : (y == x) = (y.toModel.unpack.compare x.toModel.unpack == some .eq) := rfl
  rw [hx, hy, compare_swap x.toModel.unpack]
  cases x.toModel.unpack.compare y.toModel.unpack with
  | none => rfl
  | some o => cases o <;> rfl

end Number

/-! ## Truth -/

namespace Datum

@[simp] theorem truth_ofTruth (t : Option Bool) : (ofTruth t).truth = t := by cases t <;> rfl

theorem truth_eq_some_iff {d : Datum} {b : Bool} : d.truth = some b ↔ d = .boolean b := by
  cases d <;> simp [truth]

instance : Std.Associative conjunction where
  assoc p q r := by rcases p with _ | _ | _ <;> rcases q with _ | _ | _ <;> rcases r with _ | _ | _ <;> rfl

instance : Std.LawfulRightIdentity conjunction (some true) where
  right_id p := by rcases p with _ | _ | _ <;> rfl

instance : Std.Associative disjunction where
  assoc p q r := by rcases p with _ | _ | _ <;> rcases q with _ | _ | _ <;> rcases r with _ | _ | _ <;> rfl

instance : Std.LawfulRightIdentity disjunction (some false) where
  right_id p := by rcases p with _ | _ | _ <;> rfl

theorem conjunction_eq_true_iff {p q : Option Bool} :
    conjunction p q = some true ↔ p = some true ∧ q = some true := by
  rcases p with _ | _ | _ <;> rcases q with _ | _ | _ <;> simp [conjunction]

/-! ## Lists -/

theorem equalItems_cons (x y : Datum) (xs ys : List Datum) :
    equalItems (x :: xs) (y :: ys) = conjunction (equal x y) (equalItems xs ys) := by
  rw [equalItems]
  rcases equal x y with _ | _ | _ <;> rcases equalItems xs ys with _ | _ | _ <;> rfl

/-- Lists are compared item by item, and where one is longer they are different at the end. -/
theorem equal_list_cons (x y : Datum) (xs ys : List Datum) :
    equal (.list (x :: xs)) (.list (y :: ys)) =
      conjunction (equal x y) (equal (.list xs) (.list ys)) := by
  rw [equal, equal, List.length_cons, List.length_cons, equalItems_cons]
  by_cases h : xs.length = ys.length
  · rw [if_pos (congrArg Nat.succ h), if_pos h]
  · rw [if_neg fun heq => h (Nat.succ.inj heq), if_neg h]
    rcases equal x y with _ | _ | _ <;> rfl

/-- Two lists of one length are equal as far as all pairs of their items are, wherever the first pair of
different items stands. -/
theorem equal_list {α : Type} (left right : α → Datum) (as : List α) :
    equal (.list (as.map left)) (.list (as.map right)) =
      (as.map fun a => equal (left a) (right a)).foldr conjunction (some true) := by
  induction as with
  | nil => rfl
  | cons a as ih => rw [List.map_cons, List.map_cons, equal_list_cons, ih]; rfl

theorem equal_list_of_length {xs ys : List Datum} (h : xs.length ≠ ys.length) :
    equal (.list xs) (.list ys) = some false := by
  rw [equal, if_neg h]

/-- A list has a member as far as any of its items is equal to it. -/
theorem member_eq (x : Datum) (ys : List Datum) :
    member x ys = (ys.map (equal x)).foldr disjunction (some false) := by
  induction ys with
  | nil => rfl
  | cons y ys ih => rw [member, ih]; rfl

mutual

theorem equal_comm : ∀ a b : Datum, equal a b = equal b a
  | .null, b => by cases b <;> rfl
  | .boolean a, b => by cases b <;> first | rfl | rw [equal, equal, BEq.comm]
  | .integer a, b => by cases b <;> first | rfl | rw [equal, equal, BEq.comm]
  | .real a, b => by cases b <;> first | rfl | rw [equal, equal, Number.beq_comm]
  | .text a, b => by cases b <;> first | rfl | rw [equal, equal, BEq.comm]
  | .element a, b => by cases b <;> first | rfl | rw [equal, equal, BEq.comm]
  | .list xs, b => by
    cases b with
    | list ys => rw [equal, equal, equalItems_comm xs ys]; simp only [eq_comm]
    | _ => rfl

theorem equalItems_comm : ∀ xs ys : List Datum, equalItems xs ys = equalItems ys xs
  | [], [] => rfl
  | [], _ :: _ => rfl
  | _ :: _, [] => rfl
  | x :: xs, y :: ys => by
    rw [equalItems_cons, equalItems_cons, equal_comm x y, equalItems_comm xs ys]

end

end Datum

/-! ## Expressions -/

namespace Expr

theorem holds_iff {e : Expr} {store : Store} {scope : Scope} :
    e.holds store scope = true ↔ e.eval store scope = .boolean true := by
  rw [holds, beq_iff_eq, Datum.truth_eq_some_iff]

variable (store : Store) (scope : Scope)

theorem evalList_eq (es : List Expr) : evalList store scope es = es.map (eval store scope) := by
  induction es with
  | nil => rfl
  | cons e es ih => rw [evalList, ih, List.map_cons]

/-- Expressions joined by one operator, as they are read without parentheses. -/
def chain (op : BinaryOp) (e : Expr) (es : List Expr) : Expr := es.foldl (.binary op) e

/-- A chain of expressions that are true, false or null has the truth of its members, put together. -/
theorem eval_chain {α : Type} {op : BinaryOp} {join : Option Bool → Option Bool → Option Bool}
    (hop : ∀ p q, Datum.binary op (.ofTruth p) (.ofTruth q) = .ofTruth (join p q))
    {e : α → Expr} {truth : α → Option Bool} (he : ∀ a, (e a).eval store scope = .ofTruth (truth a))
    (a : α) (as : List α) :
    (chain op (e a) (as.map e)).eval store scope = .ofTruth ((as.map truth).foldl join (truth a)) := by
  suffices h : ∀ (first : Expr) (t : Option Bool), first.eval store scope = .ofTruth t →
      (chain op first (as.map e)).eval store scope = .ofTruth ((as.map truth).foldl join t) from
    h (e a) (truth a) (he a)
  induction as with
  | nil => exact fun first t h => h
  | cons b as ih =>
    intro first t h
    exact ih (.binary op first (e b)) (join t (truth b)) (by rw [eval, h, he b, hop])

theorem binary_and (p q : Option Bool) :
    Datum.binary .and (.ofTruth p) (.ofTruth q) = .ofTruth (Datum.conjunction p q) := by
  rw [Datum.binary, Datum.truth_ofTruth, Datum.truth_ofTruth]

theorem binary_or (p q : Option Bool) :
    Datum.binary .or (.ofTruth p) (.ofTruth q) = .ofTruth (Datum.disjunction p q) := by
  rw [Datum.binary, Datum.truth_ofTruth, Datum.truth_ofTruth]

theorem eval_eq (a b : Expr) :
    (binary .eq a b).eval store scope =
      .ofTruth (Datum.equal (a.eval store scope) (b.eval store scope)) := by
  rw [eval, Datum.binary]

theorem eval_list (es : List Expr) :
    (list es).eval store scope = .list (es.map (eval store scope)) := by
  rw [eval, evalList_eq]

theorem eval_eq_list (ps : List (Expr × Expr)) :
    (binary .eq (.list (ps.map (·.1))) (.list (ps.map (·.2)))).eval store scope =
      .ofTruth ((ps.map fun p => Datum.equal (p.1.eval store scope) (p.2.eval store scope)).foldr
        Datum.conjunction (some true)) := by
  rw [eval_eq, eval_list, eval_list, List.map_map, List.map_map, Datum.equal_list]
  rfl

theorem eval_isIn_list (x : Expr) (es : List Expr) :
    (binary .isIn x (.list es)).eval store scope =
      .ofTruth ((es.map fun e => Datum.equal (x.eval store scope) (e.eval store scope)).foldr
        Datum.disjunction (some false)) := by
  rw [eval, eval_list, Datum.binary, Datum.member_eq, List.map_map]
  rfl

/-- **An equation between lists is the conjunction of the equations between their items**, and membership
in a list the disjunction of the equations with its items. Lists of different lengths are different,
nothing is a member of the empty list, and the sides of an equation may change places. -/
theorem eval_equations :
    (∀ (p : Expr × Expr) (ps : List (Expr × Expr)),
      (binary .eq (.list ((p :: ps).map (·.1))) (.list ((p :: ps).map (·.2)))).eval store scope =
        (chain .and (.binary .eq p.1 p.2) (ps.map fun q => .binary .eq q.1 q.2)).eval store scope) ∧
      (∀ as bs : List Expr, as.length ≠ bs.length →
        (binary .eq (.list as) (.list bs)).eval store scope = .boolean false) ∧
      (∀ (x e : Expr) (es : List Expr),
        (binary .isIn x (.list (e :: es))).eval store scope =
          (chain .or (.binary .eq x e) (es.map fun e => .binary .eq x e)).eval store scope) ∧
      (∀ x : Expr, (binary .isIn x (.list [])).eval store scope = .boolean false) ∧
      ∀ a b : Expr, (binary .eq a b).eval store scope = (binary .eq b a).eval store scope := by
  refine ⟨fun p ps => ?_, fun as bs h => ?_, fun x e es => ?_, fun x => ?_, fun a b => ?_⟩
  · rw [eval_chain store scope binary_and (fun q : Expr × Expr => eval_eq store scope q.1 q.2),
      List.foldl_eq_apply_foldr, eval_eq_list, List.map_cons, List.foldr_cons]
  · rw [eval_eq, eval_list, eval_list,
      Datum.equal_list_of_length (by rwa [List.length_map, List.length_map])]
    rfl
  · rw [eval_chain store scope binary_or (eval_eq store scope x),
      List.foldl_eq_apply_foldr, eval_isIn_list, List.map_cons, List.foldr_cons]
  · rw [eval_isIn_list]
    rfl
  · rw [eval_eq, eval_eq, Datum.equal_comm]

/-- The second items decide, although nothing is known of the first ones, and lists of two lengths are
different whatever stands in them. -/
theorem eval_equations_nested :
    let store := Graph.empty.store
    let scope : Scope := ⟨[("a", .vertex ⟨1⟩)], [], none, false⟩
    let partly := list [literal .null, literal (.integer 1)]
    let twos := list [literal (.integer 2), literal (.integer 2)]
    (binary .eq (.list [var "a", partly]) (.list [literal (.text "v1"), twos])).eval store scope =
        (chain .and (.binary .eq (var "a") (literal (.text "v1"))) [.binary .eq partly twos]).eval store
          scope ∧
      (binary .eq partly twos).eval store scope = .boolean false ∧
      [partly].length ≠ [partly, twos].length ∧
      (binary .eq (.list [partly]) (.list [partly, twos])).eval store scope = .boolean false ∧
      (binary .isIn partly (.list [var "a", twos])).eval store scope =
        (chain .or (.binary .eq partly (var "a")) [.binary .eq partly twos]).eval store scope ∧
      (binary .isIn partly (.list [])).eval store scope = .boolean false ∧
      (binary .eq partly twos).eval store scope = (binary .eq twos partly).eval store scope := by
  intro store scope partly twos
  obtain ⟨hlists, hlengths, hmember, hempty, hcomm⟩ := eval_equations store scope
  exact ⟨hlists (var "a", literal (.text "v1")) [(partly, twos)], rfl, by decide,
    hlengths [partly] [partly, twos] (by decide), hmember partly (var "a") [twos], hempty partly,
    hcomm partly twos⟩

end Expr

end GraphPatterns
