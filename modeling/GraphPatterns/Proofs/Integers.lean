/-
Arithmetic on integers. An expression of integers has an exact value, worked out over all of the integers
(`Expr.exactValue?`). It is the value of the expression if 64 bits hold it and all that is worked out on
the way; otherwise the value is null, and never a number that is wrapped around or rounded
(`Expr.eval_integral`).
-/
import GraphPatterns.Graph.Basic
import GraphPatterns.Matching.Eval
import GraphPatterns.Proofs.Occurrences

namespace GraphPatterns

/-! ## One operator -/

/-- Whether 64 bits hold an integer. -/
def FitsWord (n : Int) : Prop := Int64.minValue.toInt ≤ n ∧ n ≤ Int64.maxValue.toInt

theorem fitsWord_toInt (i : Int64) : FitsWord i.toInt := ⟨i.minValue_le_toInt, i.toInt_le⟩

theorem toInt_ofInt {n : Int} (h : FitsWord n) : (Int64.ofInt n).toInt = n :=
  Int64.toInt_ofInt_of_le h.1 (Int.lt_add_one_of_le h.2)

namespace BinaryOp

/-- The operators of arithmetic. -/
def isArithmetic : BinaryOp → Bool
  | .add | .sub | .mul | .div | .mod => true
  | _ => false

/-- What an operator of arithmetic makes of two integers of any size. Division goes toward zero and leaves
a remainder with the sign of the dividend; there is none by zero. -/
def exactValue? : BinaryOp → Int → Int → Option Int
  | .add, a, b => some (a + b)
  | .sub, a, b => some (a - b)
  | .mul, a, b => some (a * b)
  | .div, a, b => if b = 0 then none else some (a.tdiv b)
  | .mod, a, b => if b = 0 then none else some (a.tmod b)
  | _, _, _ => none

/-- Whether an operator stays in the range of 64 bits. A remainder is what a quotient leaves, so the
quotient has to be in range as well. -/
def StaysInRange (op : BinaryOp) (a b : Int) : Prop :=
  (∀ n, op.exactValue? a b = some n → FitsWord n) ∧ (op = .mod → FitsWord (a.tdiv b))

end BinaryOp

namespace Datum

/-- Whether a datum is the exact value, if there is one and all is in range, and null otherwise. -/
def Reports (d : Datum) (exact : Option Int) (inRange : Prop) : Prop :=
  (∃ i : Int64, d = .integer i ∧ exact = some i.toInt ∧ inRange) ∨
    d = .null ∧ ∀ n, exact = some n → ¬ inRange

theorem reports_ofInt {n : Int} {inRange : Prop} (h : inRange ↔ FitsWord n) :
    Reports (ofInt n) (some n) inRange := by
  by_cases hn : FitsWord n
  · exact .inl ⟨Int64.ofInt n, if_pos hn, congrArg some (toInt_ofInt hn).symm, h.mpr hn⟩
  · exact .inr ⟨if_neg hn, fun _ _ hrange => hn (h.mp hrange)⟩

theorem reports_none (inRange : Prop) : Reports .null none inRange := .inr ⟨rfl, nofun⟩

theorem reports_integerOp {op : BinaryOp} (hop : op.isArithmetic = true) (a b : Int) :
    Reports (integerOp op a b) (op.exactValue? a b) (op.StaysInRange a b) := by
  have hresult {n : Int} (hexact : op.exactValue? a b = some n) (hmod : op = .mod → FitsWord (a.tdiv b)) :
      op.StaysInRange a b ↔ FitsWord n :=
    ⟨fun h => h.1 n hexact, fun h => ⟨fun m hm => Option.some.inj (hexact.symm.trans hm) ▸ h, hmod⟩⟩
  cases op with
  | add | sub | mul => exact reports_ofInt (hresult rfl nofun)
  | div =>
    by_cases hb : b = 0
    · simp only [integerOp, BinaryOp.exactValue?, if_pos hb]
      exact reports_none _
    · have hexact : BinaryOp.exactValue? .div a b = some (a.tdiv b) := if_neg hb
      rw [hexact, integerOp, if_neg hb]
      exact reports_ofInt (hresult hexact nofun)
  | mod =>
    by_cases hb : b = 0
    · simp only [integerOp, BinaryOp.exactValue?, hb, true_or, if_true]
      exact reports_none _
    · have hexact : BinaryOp.exactValue? .mod a b = some (a.tmod b) := if_neg hb
      by_cases hq : FitsWord (a.tdiv b)
      · have hquotient : (ofInt (a.tdiv b)).isNull = false := congrArg isNull (if_pos hq)
        simp only [integerOp, hb, hquotient, Bool.false_eq_true, or_self, if_false, hexact]
        exact reports_ofInt (hresult hexact fun _ => hq)
      · have hquotient : (ofInt (a.tdiv b)).isNull = true := congrArg isNull (if_neg hq)
        simp only [integerOp, hquotient, or_true, if_true]
        exact .inr ⟨rfl, fun _ _ hrange => hq (hrange.2 rfl)⟩
  | _ => cases hop

end Datum

/-! ## Expressions -/

namespace Expr

variable (store : Store) (scope : Scope)

/-- The expressions made of integers, of properties that are integers, and of arithmetic. -/
inductive IsIntegral : Expr → Prop where
  | literal (i : Int64) : IsIntegral (.literal (.integer i))
  | property {name key : String} {i : Int64}
    (h : (Expr.property name key).eval store scope = .integer i) : IsIntegral (.property name key)
  | binary {op : BinaryOp} {l r : Expr} (hop : op.isArithmetic = true) (hl : IsIntegral l)
    (hr : IsIntegral r) : IsIntegral (.binary op l r)
  | negative {e : Expr} (h : IsIntegral e) : IsIntegral (.unary .neg e)

/-- The value of an expression of integers, worked out over all of the integers. There is none where
something is divided by zero. -/
def exactValue? : Expr → Option Int
  | .literal (.integer i) => some i.toInt
  | .property name key =>
    match (Expr.property name key).eval store scope with
    | .integer i => some i.toInt
    | _ => none
  | .binary op l r => (exactValue? l).bind fun a => (exactValue? r).bind fun b => op.exactValue? a b
  | .unary .neg e => (exactValue? e).map fun a => -a
  | _ => none

/-- Whether 64 bits hold all that is worked out for an expression: the value of each part of it, and the
quotient for each remainder. -/
structure InRange (e : Expr) : Prop where
  value : ∀ x n, IsPart x e → x.exactValue? store scope = some n → FitsWord n
  quotient : ∀ l r a b, IsPart (.binary .mod l r) e → l.exactValue? store scope = some a →
    r.exactValue? store scope = some b → FitsWord (a.tdiv b)

variable {store scope} {e l r : Expr} {op : BinaryOp}

theorem InRange.part {x : Expr} (h : e.InRange store scope) (hpart : IsPart x e) :
    x.InRange store scope where
  value y n hy := h.value y n (hy.trans hpart)
  quotient l r a b hy := h.quotient l r a b (hy.trans hpart)

theorem inRange_binary {a b : Int} (ha : l.exactValue? store scope = some a)
    (hb : r.exactValue? store scope = some b) :
    (binary op l r).InRange store scope ↔
      l.InRange store scope ∧ r.InRange store scope ∧ op.StaysInRange a b := by
  have hexact : (binary op l r).exactValue? store scope = op.exactValue? a b := by
    rw [exactValue?, ha, hb, Option.bind_some, Option.bind_some]
  constructor
  · intro h
    refine ⟨h.part (.left .whole), h.part (.right .whole), fun n hn => ?_, fun hmod => ?_⟩
    · exact h.value _ n .whole (hexact.trans hn)
    · exact h.quotient l r a b (hmod ▸ .whole) ha hb
  · rintro ⟨hl, hr, hresult, hquotient⟩
    refine ⟨fun x n hx hn => ?_, fun l' r' a' b' hx ha' hb' => ?_⟩
    · rcases isPart_binary_iff.mp hx with rfl | hx | hx
      · exact hresult n (hexact.symm.trans hn)
      · exact hl.value x n hx hn
      · exact hr.value x n hx hn
    · rcases isPart_binary_iff.mp hx with heq | hx | hx
      · cases heq
        cases ha.symm.trans ha'
        cases hb.symm.trans hb'
        exact hquotient rfl
      · exact hl.quotient l' r' a' b' hx ha' hb'
      · exact hr.quotient l' r' a' b' hx ha' hb'

theorem inRange_negative {a : Int} (ha : e.exactValue? store scope = some a) :
    (unary .neg e).InRange store scope ↔ e.InRange store scope ∧ FitsWord (-a) := by
  have hexact : (unary .neg e).exactValue? store scope = some (-a) := by
    rw [exactValue?, ha, Option.map_some]
  constructor
  · exact fun h => ⟨h.part (.operand .whole), h.value _ _ .whole hexact⟩
  · rintro ⟨he, hresult⟩
    refine ⟨fun x n hx hn => ?_, fun l r a' b' hx => ?_⟩
    · rcases isPart_unary_iff.mp hx with rfl | hx
      · exact Option.some.inj (hexact.symm.trans hn) ▸ hresult
      · exact he.value x n hx hn
    · exact he.quotient l r a' b' ((isPart_unary_iff.mp hx).resolve_left nofun)

theorem inRange_atom {i : Int64} (hparts : ∀ x, IsPart x e → x = e)
    (hatom : ∀ l r, .binary .mod l r ≠ e) (hexact : e.exactValue? store scope = some i.toInt) :
    e.InRange store scope where
  value x n hx hn := by
    obtain rfl := hparts x hx
    exact Option.some.inj (hexact.symm.trans hn) ▸ fitsWord_toInt i
  quotient l r _ _ hx := absurd (hparts _ hx) (hatom l r)

theorem eval_binary_null (hop : op.isArithmetic = true)
    (h : l.eval store scope = .null ∨ r.eval store scope = .null) :
    (binary op l r).eval store scope = .null := by
  have hnull : Datum.arithmetic op (l.eval store scope) (r.eval store scope) = .null := by
    rcases h with h | h
    · rw [h]
      cases r.eval store scope <;> rfl
    · rw [h]
      cases l.eval store scope <;> rfl
  rw [eval]
  cases op with
  | add | sub | mul | div | mod => exact hnull
  | _ => cases hop

theorem eval_binary_integer (hop : op.isArithmetic = true) {i j : Int64}
    (hl : l.eval store scope = .integer i) (hr : r.eval store scope = .integer j) :
    (binary op l r).eval store scope = Datum.integerOp op i.toInt j.toInt := by
  rw [eval, hl, hr]
  cases op with
  | add | sub | mul | div | mod => rfl
  | _ => cases hop

variable (store scope) in
/-- Whether the value of an expression is the exact one, or null where something is out of range. -/
def Reports (e : Expr) : Prop :=
  Datum.Reports (e.eval store scope) (e.exactValue? store scope) (e.InRange store scope)

theorem reports_atom {i : Int64} (hparts : ∀ x, IsPart x e → x = e)
    (hatom : ∀ l r, .binary .mod l r ≠ e) (hvalue : e.eval store scope = .integer i)
    (hexact : e.exactValue? store scope = some i.toInt) : e.Reports store scope :=
  .inl ⟨i, hvalue, hexact, inRange_atom hparts hatom hexact⟩

theorem reports_binary (hop : op.isArithmetic = true) (hl : l.Reports store scope)
    (hr : r.Reports store scope) : (binary op l r).Reports store scope := by
  rcases hl with ⟨i, hl, hleft, hlrange⟩ | ⟨hl, hleft⟩
  · rcases hr with ⟨j, hr, hright, hrrange⟩ | ⟨hr, hright⟩
    · have hexact : (binary op l r).exactValue? store scope = op.exactValue? i.toInt j.toInt := by
        rw [exactValue?, hleft, hright, Option.bind_some, Option.bind_some]
      have hrange : (binary op l r).InRange store scope ↔ op.StaysInRange i.toInt j.toInt :=
        (inRange_binary hleft hright).trans ⟨fun h => h.2.2, fun h => ⟨hlrange, hrrange, h⟩⟩
      rw [Reports, eval_binary_integer hop hl hr, hexact, hrange]
      exact Datum.reports_integerOp hop i.toInt j.toInt
    · refine .inr ⟨eval_binary_null hop (.inr hr), fun n hn hrange => ?_⟩
      rw [exactValue?] at hn
      obtain ⟨a, -, hn⟩ := Option.bind_eq_some_iff.mp hn
      obtain ⟨b, hb, -⟩ := Option.bind_eq_some_iff.mp hn
      exact hright b hb (hrange.part (.right .whole))
  · refine .inr ⟨eval_binary_null hop (.inl hl), fun n hn hrange => ?_⟩
    rw [exactValue?] at hn
    obtain ⟨a, ha, -⟩ := Option.bind_eq_some_iff.mp hn
    exact hleft a ha (hrange.part (.left .whole))

theorem reports_negative (h : e.Reports store scope) : (unary .neg e).Reports store scope := by
  rcases h with ⟨i, he, hexact, hrange⟩ | ⟨he, hexact⟩
  · have hvalue : (unary .neg e).eval store scope = Datum.ofInt (-i.toInt) := by
      rw [eval, he]
      rfl
    rw [Reports, hvalue, exactValue?, hexact, Option.map_some]
    exact Datum.reports_ofInt
      ((inRange_negative hexact).trans ⟨fun h => h.2, fun h => ⟨hrange, h⟩⟩)
  · refine .inr ⟨by rw [eval, he]; rfl, fun n hn hrange => ?_⟩
    rw [exactValue?] at hn
    obtain ⟨a, ha, -⟩ := Option.map_eq_some_iff.mp hn
    exact hexact a ha (hrange.part (.operand .whole))

theorem reports_eval (h : e.IsIntegral store scope) : e.Reports store scope := by
  induction h with
  | literal i =>
    exact reports_atom (fun _ => isPart_literal_iff.mp) (by simp) (by rw [eval, Datum.ofValue])
      (by rw [exactValue?])
  | property h =>
    exact reports_atom (fun _ => isPart_property_iff.mp) (by simp) h (by rw [exactValue?, h])
  | binary hop _ _ ihl ihr => exact reports_binary hop ihl ihr
  | negative _ ih => exact reports_negative ih

/-- **Arithmetic on integers is exact or null.** The value of an expression of integers is an integer if
its exact value and all that is worked out for it is in the range of 64 bits, and then it is the exact
value; otherwise it is null. -/
theorem eval_integral (h : e.IsIntegral store scope) :
    (∀ n : Int, (∃ i : Int64, e.eval store scope = .integer i ∧ i.toInt = n) ↔
      e.exactValue? store scope = some n ∧ e.InRange store scope) ∧
    ((¬ ∃ n, e.exactValue? store scope = some n ∧ e.InRange store scope) →
      e.eval store scope = .null) := by
  rcases reports_eval h with ⟨i, hvalue, hexact, hrange⟩ | ⟨hnull, hnone⟩
  · refine ⟨fun n => ⟨?_, ?_⟩, fun hnone => absurd ⟨i.toInt, hexact, hrange⟩ hnone⟩
    · rintro ⟨j, hj, rfl⟩
      rw [hvalue] at hj
      cases hj
      exact ⟨hexact, hrange⟩
    · rintro ⟨hn, -⟩
      exact ⟨i, hvalue, Option.some.inj (hexact.symm.trans hn)⟩
  · refine ⟨fun n => ⟨?_, ?_⟩, fun _ => hnull⟩
    · rintro ⟨j, hj, -⟩
      rw [hnull] at hj
      cases hj
    · rintro ⟨hn, hrange⟩
      exact absurd hrange (hnone n hn)

/-- The least integer by minus one leaves no remainder, but the quotient is out of range; by minus two it
is in range. -/
theorem eval_integral_least :
    let store := (Graph.empty.addVertex [] [("least", .integer Int64.minValue)]).2.store
    let scope : Scope := ⟨[("x", .vertex ⟨1⟩)], [], none, false⟩
    let least := Expr.property "x" "least"
    let byOne := Expr.binary .mod least (.unary .neg (.literal (.integer 1)))
    let byTwo := Expr.binary .div least (.unary .neg (.literal (.integer 2)))
    byOne.IsIntegral store scope ∧ byOne.exactValue? store scope = some 0 ∧
      ¬ byOne.InRange store scope ∧ byOne.eval store scope = .null ∧
      byTwo.IsIntegral store scope ∧ byTwo.exactValue? store scope = some 4611686018427387904 ∧
      byTwo.InRange store scope ∧
      ∃ i : Int64, byTwo.eval store scope = .integer i ∧ i.toInt = 4611686018427387904 := by
  intro store scope least byOne byTwo
  have hleast : least.IsIntegral store scope := .property rfl
  have hone : byOne.IsIntegral store scope := .binary rfl hleast (.negative (.literal 1))
  have htwo : byTwo.IsIntegral store scope := .binary rfl hleast (.negative (.literal 2))
  have hnull : byOne.eval store scope = .null := rfl
  have hvalue : ∃ i : Int64, byTwo.eval store scope = .integer i ∧ i.toInt = 4611686018427387904 :=
    ⟨4611686018427387904, rfl, rfl⟩
  have hexact : byOne.exactValue? store scope = some 0 := rfl
  have hrange : ¬ byOne.InRange store scope := fun h => by
    obtain ⟨i, hi, -⟩ := ((eval_integral hone).1 0).mpr ⟨hexact, h⟩
    rw [hnull] at hi
    cases hi
  obtain ⟨htwoExact, htwoRange⟩ := ((eval_integral htwo).1 _).mp hvalue
  exact ⟨hone, hexact, hrange, (eval_integral hone).2 fun ⟨_, _, h⟩ => hrange h, htwo, htwoExact,
    htwoRange, hvalue⟩

end Expr

end GraphPatterns
