/-
The value of an expression. Truth has three values: a comparison with null and an operation on things
that do not go together give null, and a condition holds only if it is true. Whole numbers are exact,
or null where 64 bits do not hold the result.
-/
import GraphPatterns.Graph.Store
import GraphPatterns.Matching.Bound
import GraphPatterns.Number.Binary64

namespace GraphPatterns

/-- What an expression can evaluate to. -/
inductive Datum where
  | null
  | boolean (b : Bool)
  | integer (i : Int64)
  | real (x : Float)
  | text (s : String)
  | list (items : List Datum)
  | element (e : ElementId)

instance : Inhabited Datum := ⟨.null⟩

namespace Datum

mutual

def ofValue : Value → Datum
  | .null => .null
  | .boolean b => .boolean b
  | .integer i => .integer i
  | .real x => .real x
  | .text s => .text s
  | .list items => .list (ofValues items)

def ofValues : List Value → List Datum
  | [] => []
  | v :: rest => ofValue v :: ofValues rest

end

def isNull : Datum → Bool
  | .null => true
  | _ => false

/-- The truth of a datum; only truth values have one. -/
def truth : Datum → Option Bool
  | .boolean b => some b
  | _ => none

def ofTruth : Option Bool → Datum
  | some b => .boolean b
  | none => .null

/-! ## Truth -/

def conjunction : Option Bool → Option Bool → Option Bool
  | some false, _ => some false
  | _, some false => some false
  | some true, some true => some true
  | _, _ => none

def disjunction : Option Bool → Option Bool → Option Bool
  | some true, _ => some true
  | _, some true => some true
  | some false, some false => some false
  | _, _ => none

def exclusive : Option Bool → Option Bool → Option Bool
  | some a, some b => some (a != b)
  | _, _ => none

/-! ## Comparison -/

mutual

/-- Whether two data are equal. Lists of one length are equal if all their items are, and different if
two items are. -/
def equal : Datum → Datum → Option Bool
  | .boolean a, .boolean b => some (a == b)
  | .integer a, .integer b => some (a == b)
  | .integer a, .real b => some (a.toFloat == b)
  | .real a, .integer b => some (b.toFloat == a)
  | .real a, .real b => some (a == b)
  | .text a, .text b => some (a == b)
  | .element a, .element b => some (a == b)
  | .list a, .list b => if a.length = b.length then equalItems a b else some false
  | _, _ => none

/-- Whether all items are equal; the first pair of different items decides. -/
def equalItems : List Datum → List Datum → Option Bool
  | x :: xs, y :: ys =>
    match equal x y with
    | some false => some false
    | some true => equalItems xs ys
    | none => if equalItems xs ys = some false then some false else none
  | _, _ => some true

end

/-- The order of two doubles. A double that is not a number is in no order. -/
def compareReals (a b : Float) : Option Ordering :=
  if a < b then some .lt else if a == b then some .eq else if b < a then some .gt else none

/-- The order of two data: numbers, texts by code points, and false before true. -/
def order : Datum → Datum → Option Ordering
  | .integer a, .integer b => some (compare a.toInt b.toInt)
  | .integer a, .real b => compareReals a.toFloat b
  | .real a, .integer b => compareReals a b.toFloat
  | .real a, .real b => compareReals a b
  | .text a, .text b => some (if a < b then .lt else if a = b then .eq else .gt)
  | .boolean a, .boolean b => some (compare a.toNat b.toNat)
  | _, _ => none

/-- Whether a list has an equal item. -/
def member (x : Datum) : List Datum → Option Bool
  | [] => some false
  | y :: rest => disjunction (equal x y) (member x rest)

/-! ## Arithmetic -/

/-- An integer, if 64 bits hold it. -/
def ofInt (i : Int) : Datum :=
  if Int64.minValue.toInt ≤ i ∧ i ≤ Int64.maxValue.toInt then .integer (Int64.ofInt i)
  else .null

/-- Arithmetic on integers. Division goes toward zero; where its quotient does not fit, neither does
the remainder. -/
def integerOp (op : BinaryOp) (a b : Int) : Datum :=
  match op with
  | .add => ofInt (a + b)
  | .sub => ofInt (a - b)
  | .mul => ofInt (a * b)
  | .div => if b = 0 then .null else ofInt (a.tdiv b)
  | .mod => if b = 0 ∨ (ofInt (a.tdiv b)).isNull then .null else ofInt (a.tmod b)
  | _ => .null

def realOp (op : BinaryOp) (a b : Float) : Datum :=
  match op with
  | .add => .real (a + b)
  | .sub => .real (a - b)
  | .mul => .real (a * b)
  | .div => if b == 0.0 then .null else .real (a / b)
  | .mod => if b == 0.0 then .null else .real (Number.remainder a b)
  | _ => .null

def asReal? : Datum → Option Float
  | .integer i => some i.toFloat
  | .real x => some x
  | _ => none

/-- Arithmetic on numbers, and the sum of two texts. -/
def arithmetic (op : BinaryOp) : Datum → Datum → Datum
  | .integer a, .integer b => integerOp op a.toInt b.toInt
  | .text a, .text b => if op = .add then .text (a ++ b) else .null
  | l, r =>
    match l.asReal?, r.asReal? with
    | some a, some b => realOp op a b
    | _, _ => .null

def negative : Datum → Datum
  | .integer i => ofInt (-i.toInt)
  | .real x => .real (-x)
  | _ => .null

/-! ## Texts -/

/-- Whether a text stands somewhere in another. -/
def occursIn (part : List Char) : List Char → Bool
  | [] => part.isEmpty
  | c :: rest => part.isPrefixOf (c :: rest) || occursIn part rest

def textTest (test : List Char → List Char → Bool) : Datum → Datum → Datum
  | .text a, .text b => .boolean (test a.toList b.toList)
  | _, _ => .null

/-! ## Operators -/

def binary (op : BinaryOp) (l r : Datum) : Datum :=
  match op with
  | .eq => ofTruth (equal l r)
  | .ne => ofTruth ((equal l r).map (!·))
  | .lt => ofTruth ((order l r).map (· == .lt))
  | .le => ofTruth ((order l r).map (· != .gt))
  | .gt => ofTruth ((order l r).map (· == .gt))
  | .ge => ofTruth ((order l r).map (· != .lt))
  | .and => ofTruth (conjunction l.truth r.truth)
  | .or => ofTruth (disjunction l.truth r.truth)
  | .xor => ofTruth (exclusive l.truth r.truth)
  | .add | .sub | .mul | .div | .mod => arithmetic op l r
  | .contains => textTest (fun a b => occursIn b a) l r
  | .startsWith => textTest (fun a b => b.isPrefixOf a) l r
  | .endsWith => textTest (fun a b => b.isSuffixOf a) l r
  | .isIn =>
    match r with
    | .list items => ofTruth (member l items)
    | _ => .null

def unary (op : UnaryOp) (v : Datum) : Datum :=
  match op with
  | .not => ofTruth (v.truth.map (!·))
  | .neg => v.negative
  | .isNull => .boolean v.isNull
  | .isNotNull => .boolean !v.isNull

/-- A variable as a datum: a path is the list of its elements. -/
def ofBound : Bound → Datum
  | .vertex v => .element (.vertex v)
  | .edge e => .element (.edge e)
  | .group items => .list (items.map .element)
  | .path p => .list (p.elements.map .element)

/-- The property of what a variable is bound to. -/
def ofProperty (store : Store) (key : String) : Bound → Datum
  | .vertex v => read (.vertex v)
  | .edge e => read (.edge e)
  | _ => .null
where
  read (e : ElementId) : Datum :=
    match (store.properties? e).bind (·.get? key) with
    | some v => ofValue v
    | none => .null

end Datum

namespace Expr

mutual

/-- The value of an expression. Nothing an expression does can be observed, so both operands of an
operator are evaluated. -/
def eval (store : Store) (scope : Scope) : Expr → Datum
  | .literal v => .ofValue v
  | .var name => ((scope.lookup name).map Datum.ofBound).getD .null
  | .property name key => ((scope.lookup name).map (Datum.ofProperty store key)).getD .null
  | .binary op l r => Datum.binary op (eval store scope l) (eval store scope r)
  | .unary op e => Datum.unary op (eval store scope e)
  | .list items => .list (evalList store scope items)

def evalList (store : Store) (scope : Scope) : List Expr → List Datum
  | [] => []
  | e :: rest => eval store scope e :: evalList store scope rest

end

/-- Whether a condition is true. -/
def holds (e : Expr) (store : Store) (scope : Scope) : Bool :=
  (e.eval store scope).truth == some true

end Expr

end GraphPatterns
