/-
Which expressions are read back from their text (`GraphPattern.parse_render_condition`). `NOT` is written
without parentheses. To the left of an operator that binds tighter it takes the whole comparison; to the
right of one, and after a sign, it is read as a variable. So an expression is read back exactly if `NOT`
stands in no such place. For the others the parsers are followed through the text: what they read
mentions a variable spelled `NOT`, or ends where the text of the expression ends (`Settles`).
-/
import GraphPatterns.Proofs.Grammar
import GraphPatterns.Proofs.ReadWordings

namespace GraphPatterns

open GraphPatterns.Parser

namespace Expr

/-! ## Places of negations -/

mutual

/-- An expression with printable literals and no variable spelled `NOT`. -/
def Legible : Expr → Prop
  | .literal v => v.Printable
  | .var name => spells name "NOT" = false
  | .property name _ => spells name "NOT" = false
  | .binary _ l r => Legible l ∧ Legible r
  | .unary _ e => Legible e
  | .list items => AllLegible items

def AllLegible : List Expr → Prop
  | [] => True
  | e :: rest => Legible e ∧ AllLegible rest

end

mutual

/-- `NOT` stands only at the top or directly under `NOT`, `AND`, `OR`, `XOR` or a list. -/
def NotsFree : Expr → Prop
  | .literal _ => True
  | .var _ => True
  | .property _ _ => True
  | .binary op l r =>
    NotsFree l ∧ NotsFree r ∧
      (op.isLogical = false → l.isNegation = false ∧ r.isNegation = false)
  | .unary op e => NotsFree e ∧ (op ≠ .not → e.isNegation = false)
  | .list items => AllNotsFree items

def AllNotsFree : List Expr → Prop
  | [] => True
  | e :: rest => NotsFree e ∧ AllNotsFree rest

end

mutual

theorem printable_of_notsFree (e : Expr) (hl : e.Legible) (hf : e.NotsFree) : e.Printable := by
  cases e with
  | literal v => exact hl
  | var name => exact hl
  | property name key => exact hl
  | binary op l r =>
    exact ⟨printable_of_notsFree l hl.1 hf.1, printable_of_notsFree r hl.2 hf.2.1, hf.2.2⟩
  | unary op e => exact ⟨printable_of_notsFree e hl hf.1, hf.2⟩
  | list items => exact allPrintable_of_notsFree items hl hf

theorem allPrintable_of_notsFree (items : List Expr) (hl : AllLegible items) (hf : AllNotsFree items) :
    AllPrintable items := by
  cases items with
  | nil => trivial
  | cons e items => exact ⟨printable_of_notsFree e hl.1 hf.1, allPrintable_of_notsFree items hl.2 hf.2⟩

end

/-- A variable of the expression is spelled `NOT`. -/
def MentionsNot (e : Expr) : Prop := ∃ name ∈ e.vars, spells name "NOT" = true

theorem MentionsNot.of_vars {e e' : Expr} (h : e.MentionsNot) (hvars : ∀ name ∈ e.vars, name ∈ e'.vars) :
    e'.MentionsNot := by
  obtain ⟨name, hname, hspells⟩ := h
  exact ⟨name, hvars name hname, hspells⟩

mutual

theorem not_mentionsNot (e : Expr) (h : e.Legible) : ∀ name ∈ e.vars, spells name "NOT" = false := by
  cases e with
  | literal v => exact fun name hname => (List.not_mem_nil hname).elim
  | var name => exact List.forall_mem_singleton.mpr h
  | property name key => exact List.forall_mem_singleton.mpr h
  | binary op l r =>
    rw [vars]
    exact List.forall_mem_append.mpr ⟨not_mentionsNot l h.1, not_mentionsNot r h.2⟩
  | unary op e => exact not_mentionsNot e h
  | list items => exact not_mentionsNot_all items h

theorem not_mentionsNot_all (items : List Expr) (h : AllLegible items) :
    ∀ name ∈ varsOfList items, spells name "NOT" = false := by
  cases items with
  | nil => exact fun name hname => (List.not_mem_nil hname).elim
  | cons e items =>
    rw [varsOfList]
    exact List.forall_mem_append.mpr ⟨not_mentionsNot e h.1, not_mentionsNot_all items h.2⟩

end

theorem Legible.not_mentionsNot {e : Expr} (h : e.Legible) : ¬ e.MentionsNot := by
  rintro ⟨name, hname, hspells⟩
  rw [Expr.not_mentionsNot e h name hname] at hspells
  cases hspells

end Expr

namespace Parser

variable {inner : Parse Expr} {s rest after r : List Char} {e l x : Expr}

/-! ## What is read from an operand on -/

/-- What a comparison reads after its first operand. -/
def comparisonFrom (inner : Parse Expr) (left : Expr) : Parse Expr := fun s => do
  let (left, s) ← chainFrom productOperator (signed inner) s.length left s
  let (left, s) ← chainFrom sumOperator (product inner) s.length left s
  compared inner left s

/-- What an expression reads after its first negation or comparison. -/
def exprFrom (inner : Parse Expr) (left : Expr) : Parse Expr := fun s => do
  let (left, s) ← chainFrom (operatorAt 2) (negation inner) s.length left s
  let (left, s) ← chainFrom (operatorAt 1) (operand inner 2) s.length left s
  chainFrom (operatorAt 0) (operand inner 1) s.length left s

theorem comparison_eq (s : List Char) :
    comparison inner s = signed inner s >>= fun (left, s) => comparisonFrom inner left s := by
  rw [comparison_eq_sum, sum, chain, product, chain]
  simp only [bind_assoc]
  rfl

theorem exprOver_eq (s : List Char) :
    exprOver inner s = negation inner s >>= fun (left, s) => exprFrom inner left s := by
  rw [exprOver, chain, chain, chain]
  simp only [bind_assoc]
  rfl

/-- Reading on keeps the variables of what has been read. -/
def Keeps (next : Expr → Parse Expr) : Prop :=
  ∀ left s x r, next left s = .ok (x, r) → ∀ name ∈ left.vars, name ∈ x.vars

theorem Keeps.bind {next next' : Expr → Parse Expr} (h : Keeps next) (h' : Keeps next') :
    Keeps fun left s => next left s >>= fun (left, s) => next' left s := by
  intro left s x r hrun name hname
  obtain ⟨⟨left', s'⟩, hnext, hrun⟩ := Except.bind_eq_ok_iff.mp hrun
  exact h' _ _ _ _ hrun name (h _ _ _ _ hnext name hname)

theorem keeps_chainFrom (operator : Operator) (parser : Parse Expr) (bound : Nat → Nat) :
    Keeps fun left s => chainFrom operator parser (bound s.length) left s := by
  suffices h : ∀ bound, Keeps (chainFrom operator parser bound) from fun _ s => h (bound s.length) _ s
  intro bound
  induction bound with
  | zero =>
    intro left s x r hrun name hname
    cases hrun
    exact hname
  | succ bound ih =>
    intro left s x r hrun name hname
    rw [chainFrom] at hrun
    split at hrun
    · cases hrun
      exact hname
    · obtain ⟨⟨right, s'⟩, -, hrun⟩ := Except.bind_eq_ok_iff.mp hrun
      refine ih _ _ _ _ hrun name ?_
      rw [Expr.vars]
      exact List.mem_append_left _ hname

theorem keeps_compared : Keeps (compared inner) := by
  intro left s x r hrun name hname
  rw [compared] at hrun
  split at hrun
  · obtain ⟨s', -, hrun⟩ := Except.bind_eq_ok_iff.mp hrun
    cases hrun
    exact hname
  · obtain ⟨found, -, hrun⟩ := Except.bind_eq_ok_iff.mp hrun
    cases found with
    | none =>
      cases hrun
      exact hname
    | some found =>
      obtain ⟨⟨right, s'⟩, -, hrun⟩ := Except.bind_eq_ok_iff.mp hrun
      cases hrun
      rw [Expr.vars]
      exact List.mem_append_left _ hname

theorem keeps_comparisonFrom : Keeps (comparisonFrom inner) :=
  (keeps_chainFrom _ _ id).bind ((keeps_chainFrom _ _ id).bind keeps_compared)

theorem keeps_exprFrom : Keeps (exprFrom inner) :=
  (keeps_chainFrom _ _ id).bind ((keeps_chainFrom _ _ id).bind (keeps_chainFrom _ _ id))

/-! ## Settled results -/

/-- Whatever is read mentions a variable spelled `NOT`, or is of a kind and has `after` left behind it. -/
def Settles (result : Except Failure (Expr × List Char)) (after : List Char) (kind : Expr → Prop) : Prop :=
  ∀ x r, result = .ok (x, r) → x.MentionsNot ∨ r = after ∧ kind x

namespace Settles

variable {result : Except Failure (Expr × List Char)} {after' : List Char} {kind kind' : Expr → Prop}

theorem of_ok (h : kind x) : Settles (.ok (x, after)) after kind := by
  intro x' r hrun
  cases hrun
  exact .inr ⟨rfl, h⟩

theorem mono (h : Settles result after kind) (himp : ∀ x, kind x → kind' x) : Settles result after kind' :=
  fun x r hrun => (h x r hrun).imp_right fun ⟨hr, hx⟩ => ⟨hr, himp _ hx⟩

theorem bind {next : Expr → Parse Expr} (h : Settles result after kind) (hkeeps : Keeps next)
    (hnext : ∀ x, kind x → Settles (next x after) after' kind') :
    Settles (result >>= fun (x, s) => next x s) after' kind' := by
  intro y r hrun
  obtain ⟨⟨x, s⟩, hx, hrun⟩ := Except.bind_eq_ok_iff.mp hrun
  rcases h x s hx with hnot | ⟨rfl, hkind⟩
  · exact .inl (hnot.of_vars (hkeeps _ _ _ _ hrun))
  · exact hnext x hkind y r hrun

theorem map {f : Expr → Expr} (h : Settles result after kind) (hf : ∀ x, ∀ name ∈ x.vars, name ∈ (f x).vars) :
    Settles (result.map fun (x, s) => (f x, s)) after fun y => ∃ x, kind x ∧ y = f x := by
  intro y r hrun
  obtain ⟨⟨x, s⟩, hx, heq⟩ := Except.map_eq_ok_iff.mp hrun
  obtain ⟨rfl, rfl⟩ := Prod.mk.inj heq
  exact (h x s hx).imp (fun hnot => hnot.of_vars (hf x)) fun ⟨hr, hkind⟩ => ⟨hr, x, hkind, rfl⟩

end Settles

/-! ## What follows an operand -/

section

variable {left : Expr} {op : BinaryOp} {t : List Char} {kind : Expr → Prop}

theorem compared_pauses (h : Pauses rest) : compared inner left rest = .ok (left, rest) := by
  rw [compared, h.test]
  dsimp only
  rw [h.comparator]
  rfl

theorem comparisonFrom_pauses (h : Pauses rest) : comparisonFrom inner left rest = .ok (left, rest) := by
  rw [comparisonFrom, chainFrom_none h.product, ok_bind]
  dsimp only
  rw [chainFrom_none h.sum, ok_bind]
  exact compared_pauses h

theorem exprFrom_closes (h : Closes rest) : exprFrom inner left rest = .ok (left, rest) := by
  have hand : operatorAt 2 rest = none := h.word (by decide)
  have hxor : operatorAt 1 rest = none := h.word (by decide)
  have hor : operatorAt 0 rest = none := h.word (by decide)
  rw [exprFrom, chainFrom_none hand, ok_bind]
  dsimp only
  rw [chainFrom_none hxor, ok_bind]
  exact chainFrom_none hor _

theorem settles_chainFrom {operator : Operator} {parser : Parse Expr} (hs : operator s = some (op, t))
    (hne : s ≠ []) (h : Settles (parser t) after kind) (hend : operator after = none) :
    Settles (chainFrom operator parser s.length left s) after
      fun x => ∃ right, kind right ∧ x = .binary op left right := by
  obtain ⟨c, s', rfl⟩ := List.exists_cons_of_ne_nil hne
  have hkeeps : Keeps fun right s => chainFrom operator parser s'.length (.binary op left right) s := by
    intro right s x r hrun name hname
    refine keeps_chainFrom operator parser (fun _ => s'.length) _ _ _ _ hrun name ?_
    rw [Expr.vars]
    exact List.mem_append_right _ hname
  rw [List.length_cons, chainFrom, hs]
  refine h.bind hkeeps ?_
  intro right hright
  rw [chainFrom_none hend]
  exact .of_ok ⟨right, hright, rfl⟩

theorem settles_chain {operator : Operator} {parser : Parse Expr} (h : Settles (parser s) after kind)
    (hend : operator after = none) : Settles (chain operator parser s) after kind := by
  refine h.bind (keeps_chainFrom operator parser id) ?_
  intro x hx
  rw [chainFrom_none hend]
  exact .of_ok hx

theorem settles_operator (hop : op.isLogical = false) (h : Settles (signed inner (' ' :: t)) after kind)
    (hafter : Pauses after) :
    Settles (comparisonFrom inner left (spaced op t)) after
      fun x => ∃ right, kind right ∧ x = .binary op left right := by
  have hne : spaced op t ≠ [] := List.cons_ne_nil _ _
  by_cases hproduct : op ∈ [.mul, .div, .mod]
  · have hs : productOperator (spaced op t) = some (op, ' ' :: t) := by
      rw [productOperator_spaced, if_pos hproduct]
    refine (settles_chainFrom hs hne h hafter.product).bind
      ((keeps_chainFrom sumOperator (product inner) id).bind keeps_compared) ?_
    intro x hx
    dsimp only
    rw [chainFrom_none hafter.sum, ok_bind]
    dsimp only
    rw [compared_pauses hafter]
    exact .of_ok hx
  have hproduct : productOperator (spaced op t) = none := by
    rw [productOperator_spaced, if_neg hproduct]
  have hproductRun : Settles (product inner (' ' :: t)) after kind := settles_chain h hafter.product
  by_cases hsum : op ∈ [.add, .sub]
  · have hs : sumOperator (spaced op t) = some (op, ' ' :: t) := by
      rw [sumOperator_spaced, if_pos hsum]
    rw [comparisonFrom, chainFrom_none hproduct, ok_bind]
    refine (settles_chainFrom hs hne hproductRun hafter.sum).bind keeps_compared ?_
    intro x hx
    rw [compared_pauses hafter]
    exact .of_ok hx
  have hsum : sumOperator (spaced op t) = none := by
    rw [sumOperator_spaced, if_neg hsum]
  have hcomparator : comparator (spaced op t) = .ok (some (op, ' ' :: t)) := by
    rw [comparator_spaced, hop]
    · rfl
    · simp_all
  have hsumRun : Settles (Parser.sum inner (' ' :: t)) after kind := settles_chain hproductRun hafter.sum
  have hkeeps : Keeps fun right s => .ok (.binary op left right, s) := by
    intro right s x r hrun name hname
    cases hrun
    rw [Expr.vars]
    exact List.mem_append_right _ hname
  rw [comparisonFrom, chainFrom_none hproduct, ok_bind]
  dsimp only
  rw [chainFrom_none hsum, ok_bind]
  dsimp only
  rw [compared, is_spaced]
  dsimp only
  rw [hcomparator, ok_bind]
  refine hsumRun.bind hkeeps ?_
  intro right hright
  exact .of_ok ⟨right, hright, rfl⟩

theorem settles_truths (hop : op.isLogical = true) (h : Settles (negation inner (' ' :: t)) after kind)
    (hafter : Closes after) :
    Settles (exprFrom inner left (spaced op t)) after
      fun x => ∃ right, kind right ∧ x = .binary op left right := by
  have hne : spaced op t ≠ [] := List.cons_ne_nil _ _
  have hand : operatorAt 2 after = none := hafter.word (by decide)
  have hxor : operatorAt 1 after = none := hafter.word (by decide)
  have hor : operatorAt 0 after = none := hafter.word (by decide)
  have hword (op' : BinaryOp) (hop' : op'.isLogical = true) := word_spaced hop hop' t
  cases op with
  | and =>
    refine (settles_chainFrom (hword .and rfl) hne h hand).bind
      ((keeps_chainFrom _ _ id).bind (keeps_chainFrom _ _ id)) ?_
    intro x hx
    dsimp only [id]
    rw [chainFrom_none hxor, ok_bind]
    dsimp only
    rw [chainFrom_none hor]
    exact .of_ok hx
  | xor =>
    have hnone : operatorAt 2 (spaced .xor t) = none := hword .and rfl
    rw [exprFrom, chainFrom_none hnone, ok_bind]
    refine (settles_chainFrom (hword .xor rfl) hne (settles_chain h hand) hxor).bind
      (keeps_chainFrom _ _ id) ?_
    intro x hx
    dsimp only [id]
    rw [chainFrom_none hor]
    exact .of_ok hx
  | or =>
    have hnone : operatorAt 2 (spaced .or t) = none := hword .and rfl
    have hnone' : operatorAt 1 (spaced .or t) = none := hword .xor rfl
    rw [exprFrom, chainFrom_none hnone, ok_bind]
    dsimp only
    rw [chainFrom_none hnone', ok_bind]
    exact settles_chainFrom (hword .or rfl) hne (settles_chain (settles_chain h hand) hxor) hor
  | _ => cases hop

theorem words_test {op : UnaryOp} (hop : op.isTest = true) : Words op.testWords (' ' :: op.render.toList) := by
  have hnull : Words ["NULL"] " NULL".toList := .cons (w := "NULL".toList) isBreak_space rfl .nil
  cases op with
  | isNull => exact .cons (w := "IS".toList) isBreak_space rfl hnull
  | isNotNull =>
    exact .cons (w := "IS".toList) isBreak_space rfl (.cons (w := "NOT".toList) isBreak_space rfl hnull)
  | _ => cases hop

theorem comparisonFrom_test {op : UnaryOp} (hop : op.isTest = true) (hafter : Closes after) :
    comparisonFrom inner left (' ' :: (op.render.toList ++ after)) = .ok (.unary op left, after) := by
  have hstops := stops_of_test hop (words_test hop) after
  have hproduct : productOperator (' ' :: (op.render.toList ++ after)) = none := hstops.operator 6 (by omega)
  have hsum : sumOperator (' ' :: (op.render.toList ++ after)) = none := hstops.operator 5 (by omega)
  rw [comparisonFrom, chainFrom_none hproduct, ok_bind]
  dsimp only
  rw [chainFrom_none hsum, ok_bind]
  exact compared_test hop (words_test hop) hafter.nameEnds

end

end Parser

namespace Expr

/-! ## What is read instead -/

/-- After some negations an operand is read, and is gone on with in the way given; it is the operand that
is written only if no `NOT` in that is misplaced. -/
inductive Reread (kind : Expr → Expr → Prop) : Expr → Expr → Prop
  | operand {e left x} : e.isNegation = false → (left = e → e.NotsFree) → kind left x → Reread kind e x
  | not {e x} : Reread kind e x → Reread kind (.unary .not e) (.unary .not x)

theorem Reread.notsFree {e x : Expr} (h : Reread (fun left x => x = left) e x) (hx : x = e) : e.NotsFree := by
  induction h with
  | operand _ hfree hleft => exact hfree (hleft.symm.trans hx)
  | not _ ih => exact ⟨ih (Expr.unary.inj hx).2, fun hne => absurd rfl hne⟩

/-- What the text of the expression is read as, as an operand with a sign and after any number of
negations, with anything after it that can be read on from its first operand. -/
structure Rereads (e : Expr) : Prop where
  starts : Starts e.render.toList
  signed : ∀ {depth s rest}, skip s = e.render.toList ++ rest → Ends rest →
    Settles (Parser.signed (exprWithin depth) s) rest
      fun x => e.isNegation = false ∧ (x = e → e.NotsFree)
  negation : ∀ {depth s rest after kind}, skip s = e.render.toList ++ rest → Ends rest →
    (∀ left, Settles (comparisonFrom (exprWithin depth) left rest) after (kind left)) →
      Settles (Parser.negation (exprWithin depth) s) after (Reread kind e)

namespace Rereads

variable {e l r : Expr} {op : BinaryOp} {depth : Nat} {s rest : List Char}

theorem pausing (h : e.Rereads) (hs : skip s = e.render.toList ++ rest) (hrest : Pauses rest) :
    Settles (Parser.negation (exprWithin depth) s) rest fun x => x = e → e.NotsFree := by
  refine (h.negation hs hrest.ends fun left => ?_).mono fun x hx => hx.notsFree
  rw [comparisonFrom_pauses hrest]
  exact .of_ok rfl

theorem closing (h : e.Rereads) (hs : skip s = e.render.toList ++ rest) (hrest : Closes rest) :
    Settles (exprWithin depth s) rest fun x => x = e → e.NotsFree := by
  cases depth with
  | zero =>
    intro x r hrun
    cases hrun
  | succ depth =>
    rw [exprWithin, exprOver_eq]
    refine (h.pausing hs hrest.pauses).bind keeps_exprFrom ?_
    intro x hx
    rw [exprFrom_closes hrest]
    exact .of_ok hx

theorem of_signed (hstarts : Starts e.render.toList) (he : e.isNegation = false)
    (hnot : ∀ {s rest}, skip s = e.render.toList ++ rest → Ends rest → keyword? "NOT" s = none)
    (h : ∀ {depth s rest}, skip s = e.render.toList ++ rest → Ends rest →
      Settles (Parser.signed (exprWithin depth) s) rest fun x => x = e → e.NotsFree) : e.Rereads := by
  refine ⟨hstarts, fun hs hrest => (h hs hrest).mono fun x hx => ⟨he, hx⟩, ?_⟩
  intro depth s rest after kind hs hrest hkind
  rw [Parser.negation, prefixed_none (hnot hs hrest), comparison_eq]
  refine (h hs hrest).bind keeps_comparisonFrom ?_
  intro left hleft
  exact (hkind left).mono fun x hx => .operand he hleft hx

theorem of_readsBack (hw : e.WellFormed) (hp : e.Printable) (he : e.isNegation = false)
    (hfree : e.NotsFree) (h : ∀ depth, e.ReadsBack depth) : e.Rereads := by
  refine of_signed ((h 0).reads_signed he).starts he (keyword?_render hw hp he) ?_
  intro depth s rest hs hrest
  rw [((h depth).reads_signed he).run hs hrest]
  exact .of_ok fun _ => hfree

theorem of_parentheses {t : List Char} (he : e.isNegation = false)
    (htext : e.render.toList = '(' :: (t ++ [')']))
    (h : ∀ {depth s rest}, s = t ++ rest → Closes rest →
      Settles (exprWithin depth s) rest fun x => x = e → e.NotsFree) : e.Rereads := by
  refine of_signed ⟨'(', _, htext, rfl, by decide⟩ he ?_ ?_
  · intro s rest hs _
    rw [htext] at hs
    exact keyword?_of_symbol hs rfl (by decide)
  · intro depth s rest hs _
    rw [htext, List.cons_append, List.append_assoc] at hs
    have hsign : char? '-' s = none := char?_eq_none hs (by decide)
    have hinner : Settles (exprWithin depth (t ++ ')' :: rest)) (')' :: rest) fun x => x = e → e.NotsFree :=
      h rfl (.of_cons (by simp) rest)
    rw [Parser.signed, prefixed_none hsign, primary, char?_of_skip hs]
    intro x r hrun
    obtain ⟨⟨x', s'⟩, hx, hrun⟩ := Except.bind_eq_ok_iff.mp hrun
    obtain ⟨r', hclose, hrun⟩ := Except.bind_eq_ok_iff.mp hrun
    cases hrun
    refine (hinner _ _ hx).imp_right ?_
    rintro ⟨rfl, hfree⟩
    cases hclose
    exact ⟨rfl, hfree⟩

theorem toList_spaced_append (t rest : List Char) :
    t ++ ' ' :: (op.render.toList ++ ' ' :: r.render.toList) ++ rest =
      t ++ spaced op (r.render.toList ++ rest) := by
  simp only [spaced, List.append_assoc, List.cons_append]

theorem of_truths (hop : op.isLogical = true) (hl : l.Rereads) (hr : r.Rereads) :
    (binary op l r).Rereads := by
  refine of_parentheses rfl (toList_render_binary op l r) ?_
  intro depth s rest hs hrest
  rw [toList_spaced_append] at hs
  subst hs
  have hleft := hl.starts.skip_append (spaced op (r.render.toList ++ rest))
  have hright : skip (' ' :: (r.render.toList ++ rest)) = r.render.toList ++ rest :=
    hr.starts.skip_append rest
  cases depth with
  | zero =>
    intro x r hrun
    cases hrun
  | succ depth =>
    rw [exprWithin, exprOver_eq]
    refine (hl.pausing hleft (pauses_spaced hop _)).bind keeps_exprFrom ?_
    intro left hfree
    refine (settles_truths hop (hr.pausing hright hrest.pauses) hrest).mono ?_
    rintro x ⟨right, hfree', rfl⟩ hx
    obtain ⟨-, rfl, rfl⟩ := Expr.binary.inj hx
    refine ⟨hfree rfl, hfree' rfl, fun hnot => ?_⟩
    rw [hop] at hnot
    cases hnot

theorem of_operands (hop : op.isLogical = false) (hl : l.Rereads) (hr : r.Rereads) :
    (binary op l r).Rereads := by
  refine of_parentheses rfl (toList_render_binary op l r) ?_
  intro depth s rest hs hrest
  rw [toList_spaced_append] at hs
  subst hs
  have hleft := hl.starts.skip_append (spaced op (r.render.toList ++ rest))
  have hright : skip (' ' :: (r.render.toList ++ rest)) = r.render.toList ++ rest :=
    hr.starts.skip_append rest
  cases depth with
  | zero =>
    intro x r hrun
    cases hrun
  | succ depth =>
    rw [exprWithin, exprOver_eq]
    refine (hl.negation hleft (ends_spaced op _) fun left =>
      settles_operator hop (hr.signed hright hrest.ends) hrest.pauses).bind keeps_exprFrom ?_
    intro x hx
    rw [exprFrom_closes hrest]
    refine .of_ok ?_
    rintro rfl
    obtain ⟨hnl, hfree, right, ⟨hnr, hfree'⟩, heq⟩ := hx
    obtain ⟨-, rfl, rfl⟩ := Expr.binary.inj heq
    exact ⟨hfree rfl, hfree' rfl, fun _ => ⟨hnl, hnr⟩⟩

theorem of_test {op : UnaryOp} (hop : op.isTest = true) (h : e.Rereads) : (unary op e).Rereads := by
  have hne : op ≠ .not := fun heq => by rw [heq] at hop; cases hop
  have hself : (unary op e).isNegation = false := by cases op <;> first | rfl | exact absurd rfl hne
  refine of_parentheses hself (toList_render_test hop e) ?_
  intro depth s rest hs hrest
  rw [List.append_assoc] at hs
  subst hs
  have hoperand := h.starts.skip_append (' ' :: (op.render.toList ++ rest))
  cases depth with
  | zero =>
    intro x r hrun
    cases hrun
  | succ depth =>
    have hends : Ends (' ' :: (op.render.toList ++ rest)) := (stops_of_test hop (words_test hop) rest).ends
    have htest (left : Expr) : Settles (comparisonFrom (exprWithin depth) left
        (' ' :: (op.render.toList ++ rest))) rest fun x => x = .unary op left := by
      rw [comparisonFrom_test hop hrest]
      exact .of_ok rfl
    rw [exprWithin, exprOver_eq]
    refine (h.negation hoperand hends htest).bind keeps_exprFrom ?_
    intro x hx
    rw [exprFrom_closes hrest]
    refine .of_ok ?_
    rintro rfl
    obtain ⟨hnot, hfree, heq⟩ | hx := hx
    · obtain ⟨-, rfl⟩ := Expr.unary.inj heq
      exact ⟨hfree rfl, fun _ => hnot⟩
    · cases hop

/-- In place of an operand with a sign the word `NOT` is a variable. -/
theorem of_not (h : e.Rereads) : (unary .not e).Rereads := by
  have htext := toList_render_not e
  refine ⟨⟨'N', _, htext, rfl, by decide⟩, ?_, ?_⟩
  · intro depth s rest hs _ x r hrun
    left
    rw [htext] at hs
    have hname : IsName "NOT" := ⟨'N', ['O', 'T'], rfl, rfl, List.all_eq_true.mp rfl⟩
    have hskip : skip s = "NOT".toList ++ (' ' :: (e.render.toList ++ rest)) := hs
    have hends : NameEnds (' ' :: (e.render.toList ++ rest)) := by rintro c ⟨⟩; rfl
    have hvariable : IsVariable "NOT" := ⟨hname, by decide⟩
    rw [Parser.signed, prefixed_none (char?_eq_none hs (by decide)),
      (primary_word hs rfl).2 (hvariable.literal? hskip hends), reference,
      identifier_of_skip hname hskip hends, ok_bind] at hrun
    dsimp only at hrun
    split at hrun
    · cases hrun
      exact ⟨"NOT", by simp [vars], by decide⟩
    · obtain ⟨⟨key, s'⟩, -, hrun⟩ := Except.bind_eq_ok_iff.mp hrun
      cases hrun
      exact ⟨"NOT", by simp [vars], by decide⟩
  · intro depth s rest after kind hs hrest hkind
    rw [htext] at hs
    have hnot : keyword? "NOT" s = some (' ' :: (e.render.toList ++ rest)) := by
      rw [keyword?, hs]
      rfl
    have hskip : skip (' ' :: (e.render.toList ++ rest)) = e.render.toList ++ rest := h.starts.skip_append rest
    rw [negation_of_not hnot]
    refine ((h.negation hskip hrest hkind).map (f := .unary .not) fun x name hname => hname).mono ?_
    rintro x ⟨x, hx, rfl⟩
    exact .not hx

theorem of_neg (h : e.Rereads) : (unary .neg e).Rereads := by
  have htext := toList_render_neg e
  refine of_signed ⟨'-', _, htext, rfl, by decide⟩ rfl ?_ ?_
  · intro s rest hs _
    rw [htext] at hs
    exact keyword?_of_symbol hs rfl (by decide)
  · intro depth s rest hs hrest
    rw [htext] at hs
    have hskip : skip (' ' :: (e.render.toList ++ rest)) = e.render.toList ++ rest := h.starts.skip_append rest
    rw [signed_of_minus (char?_of_skip hs)]
    refine ((h.signed hskip hrest).map (f := .unary .neg) fun x name hname => hname).mono ?_
    rintro x ⟨x', ⟨hnot, hfree⟩, rfl⟩ hx
    obtain ⟨-, rfl⟩ := Expr.unary.inj hx
    exact ⟨hfree rfl, fun _ => hnot⟩

theorem skip_items {items : List Expr} (h : ∀ e ∈ items, e.Rereads) (rest : List Char) :
    skip ([',', ' '].intercalate (items.map fun e => e.render.toList) ++ ']' :: rest) =
      [',', ' '].intercalate (items.map fun e => e.render.toList) ++ ']' :: rest := by
  cases items with
  | nil => exact skip_cons rfl (by decide)
  | cons e items =>
    rw [List.map_cons, intercalate_cons, List.append_assoc]
    exact (h e List.mem_cons_self).starts.skip_append _

theorem itemsUntil_settles {items : List Expr} (h : ∀ e ∈ items, e.Rereads) {bound : Nat}
    (hbound : items.length ≤ bound)
    (hs : skip s = [',', ' '].intercalate (items.map fun e => e.render.toList) ++ ']' :: rest)
    {xs : List Expr} {r : List Char}
    (hrun : itemsUntil ']' (exprWithin depth) bound s = .ok (xs, r)) :
    (list xs).MentionsNot ∨ skip r = ']' :: rest ∧ (xs = items → AllNotsFree items) := by
  induction items generalizing s bound xs r with
  | nil =>
    right
    have hempty : r = s := by
      cases bound with
      | zero => cases hrun; rfl
      | succ bound =>
        rw [itemsUntil, isAt_of_skip hs, beq_self_eq_true, if_pos rfl] at hrun
        cases hrun
        rfl
    exact ⟨hempty ▸ hs, fun _ => trivial⟩
  | cons e items ih =>
    obtain ⟨bound, rfl⟩ := Nat.exists_eq_add_one_of_ne_zero (Nat.ne_zero_of_lt hbound)
    rw [List.forall_mem_cons] at h
    obtain ⟨he, hitems⟩ := h
    rw [List.map_cons, intercalate_cons, List.append_assoc] at hs
    obtain ⟨x, s', xs', hx, rfl, hend, hmore⟩ :=
      of_itemsUntil_succ (he.starts.isAt (by simp) hs) hrun
    have hclose : skip (']' :: rest) = ']' :: rest := skip_cons rfl (by decide)
    have hkeeps (hnot : x.MentionsNot ∨ (list xs').MentionsNot) : (list (x :: xs')).MentionsNot := by
      rcases hnot with hnot | hnot
      · exact hnot.of_vars fun name hname => List.mem_append_left _ hname
      · exact hnot.of_vars fun name hname => List.mem_append_right _ hname
    cases items with
    | nil =>
      rcases he.closing hs (.of_cons (by simp) rest) x s' hx with hnot | ⟨rfl, hfree⟩
      · exact .inl (hkeeps (.inl hnot))
      · obtain ⟨-, rfl⟩ := hend (char?_eq_none hclose (by decide))
        refine .inr ⟨hclose, ?_⟩
        intro heq
        exact ⟨hfree (List.cons.inj heq).1, trivial⟩
    | cons e' items =>
      rcases he.closing hs (.of_cons (by simp) _) x s' hx with hnot | ⟨rfl, hfree⟩
      · exact .inl (hkeeps (.inl hnot))
      · have hnext : char? ',' (((e' :: items).map fun e => e.render.toList).flatMap ([',', ' '] ++ ·) ++
            ']' :: rest) = some (' ' :: ([',', ' '].intercalate
              ((e' :: items).map fun e => e.render.toList) ++ ']' :: rest)) := by
          rw [List.map_cons, intercalate_cons]
          simp only [List.flatMap_cons, List.append_assoc]
          rfl
        rcases ih hitems (Nat.le_of_succ_le_succ hbound) ((skip_space _).trans (skip_items hitems rest))
          (hmore _ hnext) with hnot | ⟨hr, hfree'⟩
        · exact .inl (hkeeps (.inr hnot))
        · refine .inr ⟨hr, ?_⟩
          intro heq
          obtain ⟨rfl, rfl⟩ := List.cons.inj heq
          exact ⟨hfree rfl, hfree' rfl⟩

theorem of_list {items : List Expr} (h : ∀ e ∈ items, e.Rereads) : (list items).Rereads := by
  have htext := toList_render_list items
  refine of_signed ⟨'[', _, htext, rfl, by decide⟩ rfl ?_ ?_
  · intro s rest hs _
    rw [htext] at hs
    exact keyword?_of_symbol hs rfl (by decide)
  · intro depth s rest hs hrest x r hrun
    rw [htext, List.cons_append, List.append_assoc] at hs
    rw [Parser.signed, prefixed_none (char?_eq_none hs (by decide)), primary,
      char?_eq_none hs (by decide), char?_of_skip hs] at hrun
    obtain ⟨⟨xs, s'⟩, hitems, hrun⟩ := Except.bind_eq_ok_iff.mp hrun
    obtain ⟨r', hclose, hrun⟩ := Except.bind_eq_ok_iff.mp hrun
    cases hrun
    have hbound : items.length ≤ ([',', ' '].intercalate (items.map fun e => e.render.toList) ++
        ([']'] ++ rest)).length + 1 := by
      have hlength := length_items_le [',', ' '] fun e he => (h e he).starts
      rw [List.length_append]
      omega
    refine (itemsUntil_settles h hbound (skip_items h rest) hitems).imp_right ?_
    rintro ⟨hs', hfree⟩
    rw [expectChar_of_skip hs'] at hclose
    cases hclose
    exact ⟨rfl, fun heq => hfree (Expr.list.inj heq)⟩

end Rereads

mutual

/-- By recursion on the expression, with one case for each way to make one. -/
theorem rereads (e : Expr) (hw : e.WellFormed) (hl : e.Legible) : e.Rereads := by
  cases e with
  | literal v => exact .of_readsBack hw hl rfl trivial fun _ => .of_literal hw hl
  | var name =>
    exact .of_readsBack hw hl rfl trivial fun _ =>
      .of_reference hw.isName hw hl rfl (List.append_nil _).symm fun hs hrest => primary_var hw hs hrest
  | property name key =>
    refine .of_readsBack hw hl rfl trivial fun _ =>
      .of_reference hw.1.isName hw hl rfl (toList_render_property name key) fun {s rest} hs hrest => ?_
    rw [toList_render_property, List.append_assoc] at hs
    exact primary_property hw.1 hw.2 hs hrest
  | binary op l r =>
    have hleft := rereads l hw.1 hl.1
    have hright := rereads r hw.2 hl.2
    cases hop : op.isLogical with
    | true => exact .of_truths hop hleft hright
    | false => exact .of_operands hop hleft hright
  | unary op e =>
    have he := rereads e hw hl
    cases op with
    | not => exact .of_not he
    | neg => exact .of_neg he
    | isNull => exact .of_test rfl he
    | isNotNull => exact .of_test rfl he
  | list items => exact .of_list (rereadsAll items hw hl)

theorem rereadsAll (items : List Expr) (hw : AllWellFormed items) (hl : AllLegible items) :
    ∀ e ∈ items, e.Rereads := by
  cases items with
  | nil => exact fun e he => (List.not_mem_nil he).elim
  | cons e items => exact List.forall_mem_cons.mpr ⟨rereads e hw.1 hl.1, rereadsAll items hw.2 hl.2⟩

end

end Expr

/-! ## Conditions -/

/-- **Which conditions are read back.** The text of a condition with printable literals and without a
variable spelled `NOT` is read back as the condition exactly if `NOT` stands in it only at the top or
directly under `NOT`, `AND`, `OR`, `XOR` or a list. -/
theorem GraphPattern.parse_render_condition {input : String} {g : GraphPattern} {e : Expr}
    (hg : parse input = .ok g) (he : g.condition = some e) (hl : e.Legible) :
    parse ("(a) WHERE " ++ e.render) = .ok (nodeWhere e) ↔ e.NotsFree := by
  have hw : e.WellFormed := (wellFormed_of_parse hg).condition e he
  rw [← String.ofList_toList (s := e.render), parse_where]
  constructor
  · rintro ⟨x, rest, hrun, -, heq⟩
    obtain rfl : e = x := Option.some.inj (congrArg GraphPattern.condition heq)
    have hs : skip (' ' :: e.render.toList) = e.render.toList ++ [] := by
      rw [List.append_nil]
      exact (e.rereads hw hl).starts.skip_eq
    rcases (e.rereads hw hl).closing hs (by rintro c ⟨⟩) e rest hrun with hnot | ⟨-, hfree⟩
    · exact absurd hnot hl.not_mentionsNot
    · exact hfree rfl
  · intro hfree
    have hreads := Expr.reads hw (e.printable_of_notsFree hl hfree)
    have hrun : Parser.expr (' ' :: (e.render.toList ++ [])) = .ok (e, []) :=
      hreads.run_space (by rintro c ⟨⟩)
    rw [List.append_nil] at hrun
    exact ⟨e, [], hrun, rfl, rfl⟩

/-- A `NOT` in front of a comparison is read back. -/
theorem GraphPattern.parse_render_condition_not :
    ∃ g e, parse "(a) WHERE NOT a.x = 1" = .ok g ∧ g.condition = some e ∧ e.NotsFree ∧
      parse ("(a) WHERE " ++ e.render) = .ok (nodeWhere e) := by
  have hread : parse "(a) WHERE NOT a.x = 1" = .ok (nodeWhere
      (.unary .not (.binary .eq (.property "a" "x") (.literal (.integer 1))))) := rfl
  have hlegible : Expr.Legible (.unary .not (.binary .eq (.property "a" "x") (.literal (.integer 1)))) :=
    ⟨rfl, trivial⟩
  have hfree : Expr.NotsFree (.unary .not (.binary .eq (.property "a" "x") (.literal (.integer 1)))) :=
    ⟨⟨trivial, trivial, fun _ => ⟨rfl, rfl⟩⟩, fun h => absurd rfl h⟩
  exact ⟨_, _, hread, rfl, hfree, (parse_render_condition hread rfl hlegible).mpr hfree⟩

/-- A `NOT` between parentheses on the left of a comparison is read back with the comparison under it. -/
theorem GraphPattern.parse_render_condition_misread :
    ∃ g e, parse "(a) WHERE (NOT a.x) = 1" = .ok g ∧ g.condition = some e ∧ e.Legible ∧
      parse ("(a) WHERE " ++ e.render) ≠ .ok (nodeWhere e) := by
  refine ⟨_, .binary .eq (.unary .not (.property "a" "x")) (.literal (.integer 1)), rfl, rfl,
    ⟨rfl, trivial⟩, ?_⟩
  have hread : parse ("(a) WHERE " ++ Expr.render
      (.binary .eq (.unary .not (.property "a" "x")) (.literal (.integer 1)))) =
      .ok (nodeWhere (.unary .not (.binary .eq (.property "a" "x") (.literal (.integer 1))))) := rfl
  rw [hread]
  intro h
  cases congrArg GraphPattern.condition (Except.ok.inj h)

end GraphPatterns
