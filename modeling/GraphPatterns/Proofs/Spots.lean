/-
What is known of a thread by its place in the program. Each place has a `Spot`: the loops and groups that
stand around it, and the most edges that may still come, which depends on how often these loops have been
repeated. The spots of a pattern are listed along its code (`PathExpr.spots`), and each instruction leads
from its spot to the spots of the places it goes on at (`Inst.Sound`). One lemma for each construct shows
this of its code (`Region`), so it is so of a whole program (`PathPattern.sound`).
-/
import GraphPatterns.Proofs.Simulation
import Mathlib.Data.ENat.Lattice

namespace GraphPatterns

/-- Something that stands around an instruction. -/
inductive Enclosure where
  /-- A loop, in the middle of a repetition or between two of them. -/
  | loop (running : Bool)
  /-- A pattern between parentheses. -/
  | group (mode : PathMode)
deriving DecidableEq

namespace Enclosure

def isLoop : Enclosure → Bool
  | loop _ => true
  | group _ => false

/-- Whether it is a loop in the middle of a repetition. -/
def isRunning : Enclosure → Bool
  | loop running => running
  | group _ => false

/-- The mode of a pattern between parentheses. -/
def mode? : Enclosure → Option PathMode
  | loop _ => none
  | group mode => some mode

end Enclosure

/-- What is known of a thread by its place. -/
structure Spot where
  /-- What stands around the place, the innermost first. -/
  around : List Enclosure
  /-- The most edges that may still come, if the loops around the place have so many repetitions behind
  them. -/
  most : List Nat → ℕ∞

/-! ## The most edges -/

/-- The most repetitions of a loop. One that passes its upper bound before it comes to its lower one does
not stop. -/
def mostRepetitions (lower : Nat) : Option Nat → ℕ∞
  | some upper => if lower ≤ upper then upper else ⊤
  | none => ⊤

/-- The most edges of the repetitions that are left after `n` of them. -/
def edgesLeft (most body : ℕ∞) (n : Nat) : ℕ∞ := if n ≤ most then (most - n) * body else ⊤

theorem edgesLeft_zero (most body : ℕ∞) : edgesLeft most body 0 = most * body := by
  simp [edgesLeft]

/-- A repetition takes its edges from those that are left, unless the loop has to stop. -/
theorem add_edgesLeft_le {lower : Nat} {upper : Option Nat} (body : ℕ∞) {n : Nat}
    (h : n < lower ∨ upper ≠ some n) :
    body + edgesLeft (mostRepetitions lower upper) body (n + 1) ≤
      edgesLeft (mostRepetitions lower upper) body n := by
  have hnext (hn : n ≤ mostRepetitions lower upper) : (n + 1 : Nat) ≤ mostRepetitions lower upper := by
    cases upper with
    | none => exact le_top
    | some upper =>
      rw [mostRepetitions] at hn ⊢
      split_ifs at hn ⊢ with hle
      · have hne : upper ≠ n := fun he => h.elim (by omega) fun hu => hu (congrArg some he)
        norm_cast at hn ⊢
        omega
      · exact le_top
  generalize mostRepetitions lower upper = most at hnext ⊢
  by_cases hn : n ≤ most
  · have hsucc : most - n = most - (n + 1 : Nat) + 1 := by
      cases most with
      | top => rfl
      | coe m =>
        have := hnext hn
        norm_cast at this ⊢
        omega
    rw [edgesLeft, if_pos (hnext hn), edgesLeft, if_pos hn, hsucc, add_mul, one_mul, add_comm]
  · rw [edgesLeft.eq_def most body n, if_neg hn]
    exact le_top

mutual

/-- The most edges of a match. -/
noncomputable def PathExpr.most : PathExpr → ℕ∞
  | .term factors => termMost factors
  | .union terms => choiceMost terms
  | .multiset terms => choiceMost terms

noncomputable def choiceMost : List (List Factor) → ℕ∞
  | [] => 0
  | t :: rest => max (termMost t) (choiceMost rest)

noncomputable def termMost : List Factor → ℕ∞
  | [] => 0
  | f :: rest => f.most + termMost rest

noncomputable def Factor.most : Factor → ℕ∞
  | .mk e none => e.most
  | .mk e (some q) => mostRepetitions q.lower q.upper * e.most

noncomputable def Element.most : Element → ℕ∞
  | .node _ => 0
  | .edge _ => 1
  | .group _ _ body _ => body.most

end

/-! ## The spots of a program -/

/-- The most edges from a place in a loop: those of the loop, by the repetitions behind it, and those
after it. -/
def inLoop (left : Nat → ℕ∞) (after : List Nat → ℕ∞) : List Nat → ℕ∞
  | n :: ns => left n + after ns
  | [] => ⊤

mutual

/-- The spots of a choice between terms. -/
noncomputable def PathExpr.spots (around : List Enclosure) (after : List Nat → ℕ∞) : PathExpr → List Spot
  | .term factors => termSpots around after factors
  | .union terms => choiceSpots around after terms
  | .multiset terms => choiceSpots around after terms

noncomputable def choiceSpots (around : List Enclosure) (after : List Nat → ℕ∞) : List (List Factor) → List Spot
  | [] => []
  | t :: rest =>
    if rest.isEmpty then termSpots around after t
    else ⟨around, fun ns => choiceMost (t :: rest) + after ns⟩ :: termSpots around after t ++
      ⟨around, after⟩ :: choiceSpots around after rest

noncomputable def termSpots (around : List Enclosure) (after : List Nat → ℕ∞) : List Factor → List Spot
  | [] => []
  | f :: rest =>
    f.spots around (fun ns => termMost rest + after ns) ++ termSpots around after rest

noncomputable def Factor.spots (around : List Enclosure) (after : List Nat → ℕ∞) : Factor → List Spot
  | .mk e none => e.spots around after
  | .mk e (some q) =>
    let left := edgesLeft (mostRepetitions q.lower q.upper) e.most
    let again := inLoop (fun n => left (n + 1)) after
    ⟨around, fun ns => mostRepetitions q.lower q.upper * e.most + after ns⟩ ::
      ⟨.loop false :: around, inLoop left after⟩ :: e.spots (.loop true :: around) again ++
      [⟨.loop true :: around, again⟩, ⟨.loop false :: around, inLoop (fun _ => 0) after⟩]

noncomputable def Element.spots (around : List Enclosure) (after : List Nat → ℕ∞) : Element → List Spot
  | .node _ => [⟨around, after⟩]
  | .edge _ => [⟨around, fun ns => 1 + after ns⟩]
  | .group _ mode body _ =>
    ⟨around, fun ns => body.most + after ns⟩ ::
      body.spots (.group (mode.getD .walk) :: around) after ++
      [⟨.group (mode.getD .walk) :: around, after⟩]

end

/-- The spots of the program of a path pattern, one for each instruction. -/
noncomputable def PathPattern.spots (p : PathPattern) : List Spot :=
  p.expr.spots [] (fun _ => 0) ++ [⟨[], fun _ => 0⟩]

/-! ## Instructions between spots -/

/-- A place with the given surroundings, from which no more edges come than so many. -/
def At (spots : List Spot) (pc : Nat) (around : List Enclosure) (most : List Nat → ℕ∞) : Prop :=
  ∃ spot, spots[pc]? = some spot ∧ spot.around = around ∧ ∀ ns, spot.most ns ≤ most ns

theorem At.mono {spots : List Spot} {pc : Nat} {around : List Enclosure} {most more : List Nat → ℕ∞}
    (h : At spots pc around most) (hle : ∀ ns, most ns ≤ more ns) : At spots pc around more := by
  obtain ⟨spot, hspot, haround, hmost⟩ := h
  exact ⟨spot, hspot, haround, fun ns => (hmost ns).trans (hle ns)⟩

theorem At.here {spots : List Spot} {pc : Nat} {spot : Spot} (h : spots[pc]? = some spot) :
    At spots pc spot.around spot.most := ⟨spot, h, rfl, fun _ => le_rfl⟩

/-- Where an instruction goes on, from a place with a given spot. -/
def Inst.Sound (spots : List Spot) (pc : Nat) (spot : Spot) : Inst → Prop
  | .node _ _ => .loop false ∉ spot.around ∧ At spots (pc + 1) spot.around spot.most
  | .edge _ _ => .loop false ∉ spot.around ∧
    ∃ next, At spots (pc + 1) spot.around next ∧ ∀ ns, 1 + next ns ≤ spot.most ns
  | .split ahead =>
    At spots (pc + 1) spot.around spot.most ∧ At spots (pc + ahead) spot.around spot.most
  | .jump ahead => At spots (pc + ahead) spot.around spot.most
  | .openLoop => ∃ next, At spots (pc + 1) (.loop false :: spot.around) next ∧
    ∀ ns, next (0 :: ns) ≤ spot.most ns
  | .loop lower upper ahead => ∃ outer, spot.around = .loop false :: outer ∧
    At spots (pc + ahead) (.loop false :: outer) spot.most ∧
    ∃ next, At spots (pc + 1) (.loop true :: outer) next ∧
      ∀ n ns, n < lower ∨ upper ≠ some n → next (n :: ns) ≤ spot.most (n :: ns)
  | .again _ back => ∃ outer, spot.around = .loop true :: outer ∧ .loop false ∉ outer ∧ back ≤ pc ∧
    ∃ next, At spots (pc - back) (.loop false :: outer) next ∧
      ∀ n ns, next ((n + 1) :: ns) ≤ spot.most (n :: ns)
  | .closeLoop => ∃ outer, spot.around = .loop false :: outer ∧
    ∃ next, At spots (pc + 1) outer next ∧ ∀ n ns, next ns ≤ spot.most (n :: ns)
  | .openGroup mode => At spots (pc + 1) (.group mode :: spot.around) spot.most
  | .closeGroup _ _ _ => ∃ mode outer, spot.around = .group mode :: outer ∧
    At spots (pc + 1) outer spot.most
  | .accept => spot.around = []

/-- Every instruction of some code goes on as its spot says. -/
inductive Lies (spots : List Spot) : Nat → List Inst → List Spot → Prop where
  | nil (pc : Nat) : Lies spots pc [] []
  | cons {pc : Nat} {i : Inst} {spot : Spot} {code : List Inst} {part : List Spot}
    (head : i.Sound spots pc spot) (tail : Lies spots (pc + 1) code part) :
    Lies spots pc (i :: code) (spot :: part)

namespace Lies

variable {spots : List Spot} {pc : Nat} {code more : List Inst} {part others : List Spot}

theorem append (h : Lies spots pc code part) (hmore : Lies spots (pc + code.length) more others) :
    Lies spots pc (code ++ more) (part ++ others) := by
  induction h with
  | nil pc => exact hmore
  | @cons pc i spot code part head tail ih =>
    rw [List.length_cons, Nat.add_comm code.length 1, ← Nat.add_assoc] at hmore
    exact .cons head (ih hmore)

theorem sound (h : Lies spots pc code part) {k : Nat} {i : Inst} (hi : code[k]? = some i) :
    ∃ spot, part[k]? = some spot ∧ i.Sound spots (pc + k) spot := by
  induction h generalizing k with
  | nil pc => cases hi
  | @cons pc j spot code part head tail ih =>
    cases k with
    | zero =>
      obtain rfl := Option.some.inj hi
      exact ⟨spot, rfl, head⟩
    | succ k =>
      obtain ⟨spot', hspot, hsound⟩ := ih hi
      exact ⟨spot', hspot, by rwa [Nat.add_assoc, Nat.add_comm 1 k] at hsound⟩

end Lies

/-! ## The code of each construct -/

/-- Some code with its spots. If they stand at a place and what follows allows for `after`, then a thread
may enter with `most` edges more, and every instruction goes on as its spot says. -/
structure Region (spots : List Spot) (code : List Inst) (part : List Spot) (around : List Enclosure)
    (most : ℕ∞) (after : List Nat → ℕ∞) : Prop where
  length : part.length = code.length
  entry : ∀ {pc : Nat}, part <+: spots.drop pc → At spots (pc + code.length) around after →
    At spots pc around fun ns => most + after ns
  lies : ∀ {pc : Nat}, part <+: spots.drop pc → At spots (pc + code.length) around after →
    Lies spots pc code part

namespace Region

variable {spots : List Spot} {code more : List Inst} {part others : List Spot}
  {around : List Enclosure} {most most' : ℕ∞} {after : List Nat → ℕ∞}

theorem nothing : Region spots [] [] around 0 after where
  length := rfl
  entry _ hexit := hexit.mono fun ns => (zero_add (after ns)).ge
  lies _ _ := .nil _

theorem seq (h : Region spots code part around most fun ns => most' + after ns)
    (h' : Region spots more others around most' after) :
    Region spots (code ++ more) (part ++ others) around (most + most') after := by
  have hparts {pc : Nat} (hstands : part ++ others <+: spots.drop pc)
      (hexit : At spots (pc + (code ++ more).length) around after) :
      part <+: spots.drop pc ∧ others <+: spots.drop (pc + code.length) ∧
        At spots (pc + code.length + more.length) around after := by
    refine ⟨(List.prefix_append part others).trans hstands, ?_, ?_⟩
    · rw [← h.length]
      exact prefix_drop_right hstands
    · rwa [List.length_append, ← Nat.add_assoc] at hexit
  refine ⟨?_, fun hstands hexit => ?_, fun hstands hexit => ?_⟩
  · rw [List.length_append, List.length_append, h.length, h'.length]
  · obtain ⟨hpart, hothers, hexit⟩ := hparts hstands hexit
    exact (h.entry hpart (h'.entry hothers hexit)).mono fun ns => (add_assoc most most' (after ns)).ge
  · obtain ⟨hpart, hothers, hexit⟩ := hparts hstands hexit
    exact (h.lies hpart (h'.entry hothers hexit)).append (h'.lies hothers hexit)

theorem node (f : NodePattern) (grouped : Bool) (hidle : .loop false ∉ around) :
    Region spots [.node f grouped] [⟨around, after⟩] around 0 after where
  length := rfl
  entry hstands _ := (At.here (getElem?_of_prefix_drop hstands)).mono fun ns => (zero_add (after ns)).ge
  lies _ hexit := .cons ⟨hidle, hexit⟩ (.nil _)

theorem edge (pattern : EdgePattern) (grouped : Bool) (hidle : .loop false ∉ around) :
    Region spots [.edge pattern grouped] [⟨around, fun ns => 1 + after ns⟩] around 1 after where
  length := rfl
  entry hstands _ := .here (getElem?_of_prefix_drop hstands)
  lies _ hexit := .cons ⟨hidle, after, hexit, fun _ => le_rfl⟩ (.nil _)

theorem group {mode : PathMode} (name : Option String) (condition : Option Expr) (grouped : Bool)
    (h : Region spots code part (.group mode :: around) most after) :
    Region spots (.openGroup mode :: code ++ [.closeGroup name condition grouped])
      (⟨around, fun ns => most + after ns⟩ :: part ++ [⟨.group mode :: around, after⟩])
      around most after := by
  refine ⟨by simp [h.length], fun hstands _ => .here (getElem?_of_prefix_drop hstands),
    fun {pc} hstands hexit => ?_⟩
  rw [List.cons_append] at hstands ⊢
  have htail := prefix_drop_tail hstands
  have hclose := prefix_drop_right htail
  rw [h.length] at hclose
  have hleave : At spots (pc + 1 + code.length) (.group mode :: around) after :=
    .here (getElem?_of_prefix_drop hclose)
  have hbody := (List.prefix_append part _).trans htail
  refine .cons (h.entry hbody hleave) ((h.lies hbody hleave).append (.cons ⟨mode, around, rfl, ?_⟩ (.nil _)))
  rwa [List.length_append, List.length_cons, List.length_singleton,
    show pc + (code.length + 1 + 1) = pc + 1 + code.length + 1 by omega] at hexit

theorem alternation (h : Region spots code part around most after)
    (h' : Region spots more others around most' after) :
    Region spots (.split (code.length + 2) :: code ++ .jump (more.length + 1) :: more)
      (⟨around, fun ns => max most most' + after ns⟩ :: part ++ ⟨around, after⟩ :: others)
      around (max most most') after := by
  refine ⟨by simp [h.length, h'.length], fun hstands _ => .here (getElem?_of_prefix_drop hstands),
    fun {pc} hstands hexit => ?_⟩
  rw [List.cons_append] at hstands ⊢
  have htail := prefix_drop_tail hstands
  have hjump := prefix_drop_right htail
  rw [h.length] at hjump
  have hothers := prefix_drop_tail hjump
  have hleave : At spots (pc + 1 + code.length) around after := .here (getElem?_of_prefix_drop hjump)
  have hpart := (List.prefix_append part _).trans htail
  have hexit' : At spots (pc + 1 + code.length + 1 + more.length) around after := by
    rwa [List.length_append, List.length_cons, List.length_cons,
      show pc + (code.length + 1 + (more.length + 1)) = pc + 1 + code.length + 1 + more.length by omega]
      at hexit
  have hfirst := (h.entry hpart hleave).mono fun ns => add_le_add_left (le_max_left most most') (after ns)
  have hsecond := (h'.entry hothers hexit').mono fun ns =>
    add_le_add_left (le_max_right most most') (after ns)
  refine .cons ⟨hfirst, ?_⟩ ((h.lies hpart hleave).append (.cons ?_ (h'.lies hothers hexit')))
  · rwa [show pc + 1 + code.length + 1 = pc + (code.length + 2) by omega] at hsecond
  · rw [Inst.Sound]
    rwa [show pc + 1 + code.length + (more.length + 1) = pc + 1 + code.length + 1 + more.length by omega]

theorem repeated {lower : Nat} {upper : Option Nat} {body : ℕ∞} (hidle : .loop false ∉ around)
    (h : Region spots code part (.loop true :: around) body
      (inLoop (fun n => edgesLeft (mostRepetitions lower upper) body (n + 1)) after)) :
    Region spots (.openLoop :: .loop lower upper (code.length + 2) :: code ++
        [.again lower (code.length + 1), .closeLoop])
      (⟨around, fun ns => mostRepetitions lower upper * body + after ns⟩ ::
        ⟨.loop false :: around, inLoop (edgesLeft (mostRepetitions lower upper) body) after⟩ :: part ++
        [⟨.loop true :: around,
            inLoop (fun n => edgesLeft (mostRepetitions lower upper) body (n + 1)) after⟩,
          ⟨.loop false :: around, inLoop (fun _ => 0) after⟩])
      around (mostRepetitions lower upper * body) after := by
  refine ⟨by simp [h.length], fun hstands _ => .here (getElem?_of_prefix_drop hstands),
    fun {pc} hstands hexit => ?_⟩
  rw [List.cons_append, List.cons_append] at hstands ⊢
  have hloop := prefix_drop_tail hstands
  have htail := prefix_drop_tail hloop
  have hagain := prefix_drop_right htail
  rw [h.length] at hagain
  have hclose := prefix_drop_tail hagain
  have hhead := At.here (getElem?_of_prefix_drop hloop)
  have hends := At.here (getElem?_of_prefix_drop hagain)
  have hleave := At.here (getElem?_of_prefix_drop hclose)
  have hbody := (List.prefix_append part _).trans htail
  have henter := h.entry hbody hends
  refine .cons ⟨_, hhead, fun ns => ?_⟩ (.cons ⟨around, rfl, ?_, _, henter, fun n ns hn => ?_⟩
    ((h.lies hbody hends).append (.cons ⟨around, rfl, hidle, by omega,
      inLoop (edgesLeft (mostRepetitions lower upper) body) after, ?_, fun n ns => le_rfl⟩
      (.cons ⟨around, rfl, after, ?_, fun n ns => ?_⟩ (.nil _)))))
  · exact add_le_add_left (edgesLeft_zero _ body).le (after ns)
  · rw [show pc + 1 + (code.length + 2) = pc + 1 + 1 + code.length + 1 by omega]
    refine hleave.mono fun ns => ?_
    cases ns with
    | nil => exact le_top
    | cons n ns => exact add_le_add_left zero_le (after ns)
  · exact (add_assoc body _ (after ns)).ge.trans (add_le_add_left (add_edgesLeft_le body hn) (after ns))
  · rwa [show pc + 1 + 1 + code.length - (code.length + 1) = pc + 1 by omega]
  · rwa [List.length_append, List.length_cons, List.length_cons, List.length_cons, List.length_singleton,
      show pc + (code.length + 1 + 1 + (1 + 1)) = pc + 1 + 1 + code.length + 1 + 1 by omega] at hexit
  · exact (zero_add (after ns)).ge

end Region

/-! ## The code of a pattern -/

section Code

variable {spots : List Spot}

mutual

theorem PathExpr.region : ∀ (x : PathExpr) (grouped : Bool) (around : List Enclosure)
    (after : List Nat → ℕ∞), .loop false ∉ around →
    Region spots (x.code grouped) (x.spots around after) around x.most after
  | .term factors, grouped, around, after, hidle => by
    rw [PathExpr.code, PathExpr.spots, PathExpr.most]
    exact term_region factors grouped around after hidle
  | .union terms, grouped, around, after, hidle => by
    rw [PathExpr.code, PathExpr.spots, PathExpr.most]
    exact choice_region terms grouped around after hidle
  | .multiset terms, grouped, around, after, hidle => by
    rw [PathExpr.code, PathExpr.spots, PathExpr.most]
    exact choice_region terms grouped around after hidle

theorem choice_region : ∀ (terms : List (List Factor)) (grouped : Bool) (around : List Enclosure)
    (after : List Nat → ℕ∞), .loop false ∉ around →
    Region spots (choiceCode grouped terms) (choiceSpots around after terms) around
      (choiceMost terms) after
  | [], grouped, around, after, hidle => by
    rw [choiceCode, choiceSpots, choiceMost]
    exact .nothing
  | [t], grouped, around, after, hidle => by
    simp only [choiceCode, choiceSpots, choiceMost, List.isEmpty_nil, if_true, max_zero]
    exact term_region t grouped around after hidle
  | t :: t' :: rest, grouped, around, after, hidle => by
    rw [choiceCode, choiceSpots, choiceMost]
    exact .alternation (term_region t grouped around after hidle)
      (choice_region (t' :: rest) grouped around after hidle)

theorem term_region : ∀ (factors : List Factor) (grouped : Bool) (around : List Enclosure)
    (after : List Nat → ℕ∞), .loop false ∉ around →
    Region spots (termCode grouped factors) (termSpots around after factors) around
      (termMost factors) after
  | [], grouped, around, after, hidle => by
    rw [termCode, termSpots, termMost]
    exact .nothing
  | f :: rest, grouped, around, after, hidle => by
    rw [termCode, termSpots, termMost]
    exact .seq (f.region grouped around _ hidle) (term_region rest grouped around after hidle)

theorem Factor.region : ∀ (f : Factor) (grouped : Bool) (around : List Enclosure)
    (after : List Nat → ℕ∞), .loop false ∉ around →
    Region spots (f.code grouped) (f.spots around after) around f.most after
  | .mk e none, grouped, around, after, hidle => by
    rw [Factor.code, Factor.spots, Factor.most]
    exact e.region grouped around after hidle
  | .mk e (some q), grouped, around, after, hidle => by
    rw [Factor.code, Factor.spots, Factor.most]
    exact .repeated hidle (e.region true (.loop true :: around) _ (by simpa using hidle))

theorem Element.region : ∀ (e : Element) (grouped : Bool) (around : List Enclosure)
    (after : List Nat → ℕ∞), .loop false ∉ around →
    Region spots (e.code grouped) (e.spots around after) around e.most after
  | .node f, grouped, around, after, hidle => by
    rw [Element.code, Element.spots, Element.most]
    exact .node f grouped hidle
  | .edge pattern, grouped, around, after, hidle => by
    rw [Element.code, Element.spots, Element.most]
    exact .edge pattern grouped hidle
  | .group name mode body condition, grouped, around, after, hidle => by
    rw [Element.code, Element.spots, Element.most]
    exact .group name condition grouped (body.region grouped _ after (by simpa using hidle))

end

end Code

namespace PathPattern

variable (p : PathPattern)

theorem at_accept : At p.spots (p.expr.code false).length [] fun _ => 0 := by
  have hregion : Region p.spots (p.expr.code false) _ [] _ fun _ => 0 := p.expr.region false [] _ (by simp)
  have hend : p.spots.drop (p.expr.code false).length = [⟨[], fun _ => 0⟩] := by
    rw [← hregion.length, spots, List.drop_left]
  have hlast : [⟨[], fun _ => 0⟩] <+: p.spots.drop (p.expr.code false).length := hend ▸ List.prefix_rfl
  exact .here (getElem?_of_prefix_drop hlast)

/-- No more edges come from the beginning than a match may have. -/
theorem at_start : At p.spots 0 [] fun _ => p.expr.most := by
  have hregion : Region p.spots (p.expr.code false) _ [] _ fun _ => 0 := p.expr.region false [] _ (by simp)
  have haccept : At p.spots (0 + (p.expr.code false).length) [] fun _ => 0 := by
    rw [Nat.zero_add]
    exact p.at_accept
  exact (hregion.entry (List.prefix_append _ _) haccept).mono fun ns => (add_zero _).le

/-- **Every instruction of a program goes on as its spot says.** -/
theorem sound {pc : Nat} {i : Inst} (hi : (Program.compile p).code[pc]? = some i) :
    ∃ spot, p.spots[pc]? = some spot ∧ i.Sound p.spots pc spot := by
  have hregion : Region p.spots (p.expr.code false) _ [] _ fun _ => 0 := p.expr.region false [] _ (by simp)
  have hlies : Lies p.spots 0 (p.expr.code false) _ := hregion.lies (List.prefix_append _ _)
    ((Nat.zero_add (p.expr.code false).length).symm ▸ p.at_accept)
  have hall : Lies p.spots 0 (Program.compile p).code p.spots :=
    hlies.append (.cons (by rw [Inst.Sound]) (.nil _))
  simpa using hall.sound hi

end PathPattern

end GraphPatterns
