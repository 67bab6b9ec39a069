/-
Nodes, edges and quantifiers are read back. The parts of a filler may be missing, so each of its parsers
has to see from what follows that there is nothing for it to read.
-/
import GraphPatterns.Pattern.Printer
import GraphPatterns.Proofs.ReadExprs
import GraphPatterns.Proofs.ReadLabels
import Mathlib.Data.List.Basic

namespace GraphPatterns

open GraphPatterns.Parser

/-! ## Elements that can be read back -/

/-- A quantifier with bounds of 64 bits. -/
def Quantifier.WellFormed : Quantifier → Prop
  | .exactly n => n ≤ Number.maxWord
  | .atLeast n => n ≤ Number.maxWord
  | .atMost m => m ≤ Number.maxWord
  | .between n m => n ≤ Number.maxWord ∧ m ≤ Number.maxWord
  | _ => True

namespace Filler

/-- A filler of the language. The name is none of the words that start the parts after it. -/
structure WellFormed (f : Filler) : Prop where
  name : ∀ name ∈ f.name, IsName name ∧ spells name "WHERE" = false ∧ spells name "IS" = false
  label : ∀ e ∈ f.label, e.WellFormed
  key : ∀ p ∈ f.properties, IsName p.1
  condition : ∀ e ∈ f.condition, e.WellFormed

/-- A filler whose text says what it is. -/
structure Printable (f : Filler) : Prop where
  value : ∀ p ∈ f.properties, p.2.Printable
  condition : ∀ e ∈ f.condition, e.Printable

/-- The filler with its label expression in flat form. -/
def flatten (f : Filler) : Filler := { f with label := f.label.map LabelExpr.flatten }

end Filler

namespace EdgePattern

/-- An edge pattern of the language: a bare arrow has nothing in it. -/
structure WellFormed (e : EdgePattern) : Prop where
  filler : e.filler.WellFormed
  bare : e.abbreviated = true → e.filler = {}

def flatten (e : EdgePattern) : EdgePattern := { e with filler := e.filler.flatten }

end EdgePattern

namespace Parser

variable {s rest : List Char}

/-! ## Conditions -/

theorem condition_append {c : Option Expr} (hw : ∀ e ∈ c, e.WellFormed) (hp : ∀ e ∈ c, e.Printable)
    (hrest : Closes rest) : condition ((renderCondition c).toList ++ rest) = .ok (c, rest) := by
  cases c with
  | none =>
    have hnone : keyword? "WHERE" rest = none := by
      rcases hrest.cases with rfl | ⟨r, rfl | rfl | rfl | rfl⟩ <;> rfl
    change condition rest = _
    rw [condition, hnone]
  | some e =>
    have htext : (renderCondition (some e)).toList ++ rest =
        ' ' :: 'W' :: 'H' :: 'E' :: 'R' :: 'E' :: ' ' :: (e.render.toList ++ rest) := by
      rw [renderCondition, renderOption, String.toList_append]
      rfl
    have hwhere : keyword? "WHERE" (' ' :: 'W' :: 'H' :: 'E' :: 'R' :: 'E' :: ' ' ::
        (e.render.toList ++ rest)) = some (' ' :: (e.render.toList ++ rest)) := rfl
    rw [htext, condition, hwhere]
    dsimp only
    rw [(Expr.reads (hw e rfl) (hp e rfl)).run_space hrest]
    rfl

/-! ## Quantifiers -/

/-- A text that does not start with a quantifier. -/
structure NoQuantifier (rest : List Char) : Prop where
  star : char? '*' rest = none
  plus : char? '+' rest = none
  question : char? '?' rest = none
  brace : char? '\x7b' rest = none

theorem integer_append {n : Nat} (hn : n ≤ Number.maxWord) (hrest : NameEnds rest) :
    integer (Nat.toDigits 10 n ++ rest) = .ok (n, rest) :=
  integer_of_skip ((starts_toDigits n).skip_append rest) hn hrest

theorem isAtDigit_append (n : Nat) (rest : List Char) : isAtDigit (Nat.toDigits 10 n ++ rest) = true := by
  obtain ⟨c, r, hdigits, hc⟩ := exists_toDigits n
  rw [isAtDigit_of_skip ((starts_toDigits n).skip_append rest |>.trans (by rw [hdigits, List.cons_append]))]
  exact hc

theorem nameEnds_cons {c : Char} (hc : isNamePart c = false) (r : List Char) : NameEnds (c :: r) := by
  rintro d ⟨⟩
  exact hc

theorem quantifier_braces {q : Quantifier} {t : List Char}
    (h : bounds t = .ok (q, '\x7d' :: rest)) : quantifier ('\x7b' :: t) = .ok (some q, rest) := by
  have hbrace : char? '\x7b' ('\x7b' :: t) = some t := rfl
  have hothers : char? '*' ('\x7b' :: t) = none ∧ char? '+' ('\x7b' :: t) = none ∧
      char? '?' ('\x7b' :: t) = none := ⟨rfl, rfl, rfl⟩
  rw [quantifier, hothers.1, hothers.2.1, hothers.2.2, hbrace]
  dsimp only
  rw [h, ok_bind]
  rfl

/-- A quantifier is read back; where there is none, the next text must not start with one. -/
theorem quantifier_append {q : Option Quantifier} (hq : ∀ q' ∈ q, q'.WellFormed)
    (hrest : q = none → NoQuantifier rest) :
    quantifier ((renderOption Quantifier.render q).toList ++ rest) = .ok (q, rest) := by
  have hbrace : NameEnds ('\x7d' :: rest) := nameEnds_cons rfl rest
  cases q with
  | none =>
    obtain ⟨hstar, hplus, hquestion, hbrace⟩ := hrest rfl
    change quantifier rest = _
    rw [quantifier, hstar, hplus, hquestion, hbrace]
  | some q =>
  have hq := hq q rfl
  rw [renderOption]
  cases q with
  | zeroOrMore => rfl
  | oneOrMore => rfl
  | zeroOrOne => rfl
  | exactly n =>
    have htext : (Quantifier.exactly n).render.toList ++ rest =
        '\x7b' :: (Nat.toDigits 10 n ++ '\x7d' :: rest) := by
      simp [Quantifier.render, String.toList_append]
    rw [htext]
    refine quantifier_braces ?_
    rw [bounds, isAtDigit_append, if_pos rfl, integer_append hq hbrace]
    rfl
  | atLeast n =>
    have htext : (Quantifier.atLeast n).render.toList ++ rest =
        '\x7b' :: (Nat.toDigits 10 n ++ ',' :: '\x7d' :: rest) := by
      simp [Quantifier.render, String.toList_append]
    rw [htext]
    refine quantifier_braces ?_
    rw [bounds, isAtDigit_append, if_pos rfl, integer_append hq (nameEnds_cons rfl _)]
    rfl
  | atMost m =>
    have htext : (Quantifier.atMost m).render.toList ++ rest =
        '\x7b' :: ',' :: (Nat.toDigits 10 m ++ '\x7d' :: rest) := by
      simp [Quantifier.render, String.toList_append]
    rw [htext]
    refine quantifier_braces ?_
    have hcomma (t : List Char) : isAtDigit (',' :: t) = false ∧ char? ',' (',' :: t) = some t :=
      ⟨rfl, rfl⟩
    rw [bounds, (hcomma _).1, if_neg Bool.false_ne_true, (hcomma _).2]
    dsimp only
    rw [integer_append hq hbrace]
    rfl
  | between n m =>
    have htext : (Quantifier.between n m).render.toList ++ rest =
        '\x7b' :: (Nat.toDigits 10 n ++ ',' :: (Nat.toDigits 10 m ++ '\x7d' :: rest)) := by
      simp [Quantifier.render, String.toList_append]
    rw [htext]
    refine quantifier_braces ?_
    have hcomma (t : List Char) : char? ',' (',' :: t) = some t := rfl
    rw [bounds, isAtDigit_append, if_pos rfl, integer_append hq.1 (nameEnds_cons rfl _), ok_bind]
    dsimp only
    rw [hcomma]
    dsimp only
    rw [isAtDigit_append, if_pos rfl, integer_append hq.2 hbrace, ok_bind]
    rfl

/-! ## Fillers -/

/-- The text after the properties of a filler. -/
def AfterProperties (t : List Char) : Prop :=
  Closes t ∨ ∃ r, t = ' ' :: 'W' :: 'H' :: 'E' :: 'R' :: 'E' :: ' ' :: r ∧ isAt '=' r = false

/-- The text after the label expression of a filler. -/
def AfterLabel (t : List Char) : Prop := AfterProperties t ∨ ∃ r, t = ' ' :: '\x7b' :: r

/-- The text after the name of a filler. -/
def AfterName (t : List Char) : Prop := AfterLabel t ∨ ∃ r, t = ':' :: r

theorem afterProperties_condition {c : Option Expr} (hw : ∀ e ∈ c, e.WellFormed)
    (hp : ∀ e ∈ c, e.Printable) (hrest : Closes rest) :
    AfterProperties ((renderCondition c).toList ++ rest) := by
  cases c with
  | none => exact .inl hrest
  | some e =>
    refine .inr ⟨e.render.toList ++ rest, ?_, ?_⟩
    · rw [renderCondition, renderOption, String.toList_append]
      rfl
    · have hstarts := (Expr.reads (hw e rfl) (hp e rfl)).starts
      exact hstarts.isAt List.mem_cons_self (hstarts.skip_append rest)

/-- The properties of a filler with the braces around them. -/
def propertiesText (ps : List (String × Value)) : List Char :=
  if ps.isEmpty then []
  else
    ' ' :: '\x7b' :: ([',', ' '].intercalate
      (ps.map fun p => p.1.toList ++ ':' :: ' ' :: p.2.render.toList) ++ ['\x7d'])

theorem toList_render_filler (f : Filler) : f.render.toList =
    (f.name.getD "").toList ++ ((renderOption (fun e => ":" ++ e.render) f.label).toList ++
      (propertiesText f.properties ++ (renderCondition f.condition).toList)) := by
  rw [Filler.render]
  dsimp only
  rw [String.toList_append, String.toList_append, String.toList_append, List.append_assoc,
    List.append_assoc]
  congr 3
  rw [propertiesText]
  split
  · rfl
  · have hpart (p : String × Value) :
        (p.1 ++ ": " ++ p.2.render).toList = p.1.toList ++ ':' :: ' ' :: p.2.render.toList := by
      rw [String.toList_append, String.toList_append, List.append_assoc]
      rfl
    rw [String.toList_append, String.toList_append, String.toList_intercalate, List.map_map]
    exact congrArg (fun parts => ' ' :: '\x7b' :: ([',', ' '].intercalate parts ++ ['\x7d']))
      (List.map_congr_left fun p _ => hpart p)

theorem reads_property {k : String} {v : Value} (hk : IsName k) (hv : v.Legible) :
    Reads property Closes (k.toList ++ ':' :: ' ' :: v.render.toList) (k, v) := by
  refine ⟨hk.starts.append _, fun {s rest} hs hrest => ?_⟩
  have hcolon (t : List Char) : expectChar ':' (':' :: t) = .ok t := rfl
  rw [List.append_assoc, List.cons_append, List.cons_append] at hs
  rw [property, identifier_of_skip hk hs (nameEnds_cons rfl _), ok_bind]
  dsimp only
  rw [hcolon, ok_bind]
  rw [(Value.reads_value hv).run_space hrest, ok_bind]
  rfl

theorem properties_append {ps : List (String × Value)} (hkey : ∀ p ∈ ps, IsName p.1)
    (hvalue : ∀ p ∈ ps, p.2.Legible) (hrest : AfterProperties rest) :
    properties (propertiesText ps ++ rest) = .ok (ps, rest) := by
  rw [propertiesText]
  split
  · next hempty =>
    rw [List.isEmpty_iff.mp hempty, properties]
    have hbrace : char? '\x7b' rest = none := by
      rcases hrest with hrest | ⟨r, rfl, -⟩
      · rcases hrest.cases with rfl | ⟨r, rfl | rfl | rfl | rfl⟩ <;> rfl
      · rfl
    rw [List.nil_append, hbrace]
  · have hopen (t : List Char) : char? '\x7b' (' ' :: '\x7b' :: t) = some t := rfl
    rw [List.cons_append, List.cons_append, List.append_assoc, properties, hopen]
    have hrun := itemsUntil_bind (List.mem_cons_of_mem _ (List.mem_cons_of_mem _ List.mem_cons_self)) id
      (fun p hp => reads_property (hkey p hp) (hvalue p hp)) (fun r => pure (r.1, r.2)) rest rfl
    rw [List.map_id'] at hrun
    exact hrun

theorem AfterName.nameEnds (h : AfterName rest) : NameEnds rest := by
  rcases h with ((h | ⟨r, rfl, -⟩) | ⟨r, rfl⟩) | ⟨r, rfl⟩
  · exact h.nameEnds
  all_goals exact nameEnds_cons rfl _

theorem AfterLabel.labelEnds (h : AfterLabel rest) : LabelExpr.LabelEnds rest := by
  refine ⟨AfterName.nameEnds (.inl h), ?_, ?_⟩ <;>
  · rcases h with (h | ⟨r, rfl, -⟩) | ⟨r, rfl⟩
    · rcases h.cases with rfl | ⟨r, rfl | rfl | rfl | rfl⟩ <;> rfl
    all_goals rfl

theorem elementName_none (h : AfterName rest) : elementName rest = .ok (none, rest) := by
  rcases h with ((h | ⟨r, rfl, -⟩) | ⟨r, rfl⟩) | ⟨r, rfl⟩
  · rcases h.cases with rfl | ⟨r, rfl | rfl | rfl | rfl⟩ <;> rfl
  all_goals rfl

theorem elementName_append {name : Option String}
    (hname : ∀ n ∈ name, IsName n ∧ spells n "WHERE" = false ∧ spells n "IS" = false)
    (hrest : AfterName rest) : elementName ((name.getD "").toList ++ rest) = .ok (name, rest) := by
  cases name with
  | none => exact elementName_none hrest
  | some n =>
    obtain ⟨hn, hwhere, his⟩ := hname n rfl
    have hskip := hn.starts.skip_append rest
    obtain ⟨c, cs, hcs, hc, -⟩ := id hn
    have hat : isAtName (n.toList ++ rest) = true := by
      rw [isAtName_of_skip (hskip.trans (by rw [hcs, List.cons_append])), hc]
    have hkeyword {k : String} (hk : spells n k = false) : (keyword? k (n.toList ++ rest)).isNone = true := by
      rw [keyword?_of_skip hskip hn.isNamePart hrest.nameEnds, ← spells, hk]
      rfl
    rw [Option.getD_some, elementName, hat, hkeyword hwhere, hkeyword his,
      identifier_of_skip hn hskip hrest.nameEnds]
    rfl

theorem labels_append {label : Option LabelExpr} (hlabel : ∀ e ∈ label, e.WellFormed)
    (hrest : AfterLabel rest) :
    labels ((renderOption (fun e : LabelExpr => ":" ++ e.render) label).toList ++ rest) =
      .ok (label.map LabelExpr.flatten, rest) := by
  cases label with
  | none =>
    have hnone : char? ':' rest = none ∧ keyword? "IS" rest = none := by
      rcases hrest with (h | ⟨r, rfl, -⟩) | ⟨r, rfl⟩
      · rcases h.cases with rfl | ⟨r, rfl | rfl | rfl | rfl⟩ <;> exact ⟨rfl, rfl⟩
      all_goals exact ⟨rfl, rfl⟩
    change labels rest = _
    rw [labels, hnone.1, hnone.2]
    rfl
  | some e =>
    have hcolon (t : List Char) : char? ':' (':' :: t) = some t := rfl
    have hlength : e.render.toList.length ≤ (e.render.toList ++ rest).length := by simp
    have hread := LabelExpr.reads_labels (hlabel e rfl) hlength
    rw [renderOption, String.toList_append, List.append_assoc]
    change labels (':' :: (e.render.toList ++ rest)) = _
    rw [labels, hcolon, Option.some_or]
    dsimp only
    rw [hread.run_append hrest.labelEnds]
    rfl

theorem afterLabel_properties (ps : List (String × Value)) (h : AfterProperties rest) :
    AfterLabel (propertiesText ps ++ rest) := by
  rw [propertiesText]
  split
  · exact .inl h
  · exact .inr ⟨_, rfl⟩

theorem afterName_label (label : Option LabelExpr) (h : AfterLabel rest) :
    AfterName ((renderOption (fun e : LabelExpr => ":" ++ e.render) label).toList ++ rest) := by
  cases label with
  | none => exact .inl h
  | some e =>
    refine .inr ⟨e.render.toList ++ rest, ?_⟩
    rw [renderOption, String.toList_append, List.append_assoc]
    rfl

/-- **Fillers are read back**, in front of what closes the element. -/
theorem filler_append {f : Filler} (hw : f.WellFormed) (hp : f.Printable) (hrest : Closes rest) :
    filler (f.render.toList ++ rest) = .ok (f.flatten, rest) := by
  have hcondition := afterProperties_condition hw.condition hp.condition hrest
  have hproperties := afterLabel_properties f.properties hcondition
  have hlabel := afterName_label f.label hproperties
  rw [toList_render_filler, List.append_assoc, List.append_assoc, List.append_assoc, filler,
    elementName_append hw.name hlabel, ok_bind]
  dsimp only
  rw [labels_append hw.label hproperties, ok_bind]
  dsimp only
  rw [properties_append hw.key (fun p hmem => (hp.value p hmem).legible) hcondition, ok_bind]
  dsimp only
  rw [condition_append hw.condition hp.condition hrest, ok_bind]
  rfl

/-! ## Nodes and edges -/

theorem node_of_skip {n : NodePattern} (hw : n.WellFormed) (hp : n.Printable)
    (hs : skip s = (renderNode n).toList ++ rest) : node s = .ok (n.flatten, rest) := by
  have htext : skip s = '(' :: (n.render.toList ++ ')' :: rest) := by
    rw [hs, renderNode, String.toList_append, String.toList_append, List.append_assoc, List.append_assoc]
    rfl
  have hclose : Closes (')' :: rest) := .of_cons (by simp) rest
  rw [node, expectChar_of_skip htext, ok_bind, filler_append hw hp hclose, ok_bind]
  dsimp only
  rw [expectChar_of_skip (skip_cons rfl (by decide)), ok_bind]
  rfl

/-- A text that does not go on with an arrow. -/
def ArrowEnds (rest : List Char) : Prop := ∀ c ∈ rest.head?, c ≠ '>' ∧ c ≠ '['

theorem choice?_congr {α : Type} (l : List (String × α)) {s' : List Char} (h : skip s = skip s') :
    choice? l s = choice? l s' := by
  induction l with
  | nil => rfl
  | cons p l ih =>
    rw [choice?, choice?, ih, text?, text?, h]

theorem isPrefixOf?_of_head {c : Char} {t : List Char} (h : ∀ d ∈ rest.head?, d ≠ c) :
    (c :: t).isPrefixOf? rest = none := by
  cases rest with
  | nil => rfl
  | cons d r =>
    have hne : (c == d) = false := beq_eq_false_iff_ne.mpr (Ne.symm (h d rfl))
    rw [List.isPrefixOf?, hne]
    rfl

theorem edge?_bare {d : Direction} (hs : skip s = d.render.toList ++ rest) (hrest : ArrowEnds rest) :
    edge? s = some (.ok (⟨{}, d, true⟩, rest)) := by
  have hgt : ∀ t, ('>' :: t).isPrefixOf? rest = none := fun t =>
    isPrefixOf?_of_head fun c hc => (hrest c hc).1
  have hbracket : ∀ t, ('[' :: t).isPrefixOf? rest = none := fun t =>
    isPrefixOf?_of_head fun c hc => (hrest c hc).2
  have hopening : choice? openings s = none := by
    cases d <;> simp [choice?, openings, text?, hs, List.isPrefixOf?, hbracket, Direction.render]
  have harrow : choice? arrows s = some (d, rest) := by
    cases d <;> simp [choice?, arrows, text?, hs, List.isPrefixOf?, hgt, Direction.render]
  rw [edge?, hopening, harrow]
  rfl

/-- What opens an edge pattern tells how it may be closed, and the closing its direction. -/
theorem choice?_brackets (d : Direction) : ∃ opened,
    (∀ r, choice? openings (d.brackets.1.toList ++ r) = some (opened, r)) ∧
      ∀ {rest}, ArrowEnds rest →
        choice? (closings opened) (d.brackets.2.toList.tail ++ rest) = some (d, rest) := by
  have hminus {opened : String} {d d' : Direction} (h : closings opened = [("->", d), ("-", d')])
      {rest : List Char} (hrest : ArrowEnds rest) :
      choice? (closings opened) ('-' :: rest) = some (d', rest) := by
    have hskip : skip ('-' :: rest) = '-' :: rest := rfl
    have hgt : ['>'].isPrefixOf? rest = none := isPrefixOf?_of_head fun c hc => (hrest c hc).1
    simp [choice?, h, text?, hskip, List.isPrefixOf?, hgt]
  have htilde {rest : List Char} (hrest : ArrowEnds rest) :
      choice? (closings "~") ('~' :: rest) = some (.undirected, rest) := by
    have hskip : skip ('~' :: rest) = '~' :: rest := rfl
    have hgt : ['>'].isPrefixOf? rest = none := isPrefixOf?_of_head fun c hc => (hrest c hc).1
    simp [choice?, closings, text?, hskip, List.isPrefixOf?, hgt]
  cases d with
  | right => exact ⟨"-", fun _ => rfl, fun _ => rfl⟩
  | left => exact ⟨"<-", fun _ => rfl, hminus rfl⟩
  | undirected => exact ⟨"~", fun _ => rfl, htilde⟩
  | any => exact ⟨"-", fun _ => rfl, hminus rfl⟩
  | leftOrUndirected => exact ⟨"<~", fun _ => rfl, fun _ => rfl⟩
  | undirectedOrRight => exact ⟨"~", fun _ => rfl, fun _ => rfl⟩
  | leftOrRight => exact ⟨"<-", fun _ => rfl, fun _ => rfl⟩

theorem starts_brackets (d : Direction) : Starts d.brackets.1.toList := by
  cases d <;> exact ⟨_, _, rfl, rfl, by decide⟩

/-- **Edges are read back**, in front of what does not go on with an arrow. -/
theorem edge?_of_skip {e : EdgePattern} (hw : e.WellFormed) (hp : e.filler.Printable)
    (hs : skip s = e.render.toList ++ rest) (hrest : ArrowEnds rest) :
    edge? s = some (.ok (e.flatten, rest)) := by
  obtain ⟨f, d, abbreviated⟩ := e
  cases abbreviated with
  | true =>
    obtain rfl : f = {} := hw.bare rfl
    exact edge?_bare hs hrest
  | false =>
    obtain ⟨opened, hopening, hclosing⟩ := choice?_brackets d
    have hbracket : d.brackets.2.toList = ']' :: d.brackets.2.toList.tail := by cases d <;> rfl
    have htext : skip s = d.brackets.1.toList ++
        (f.render.toList ++ ']' :: (d.brackets.2.toList.tail ++ rest)) := by
      change skip s = (d.brackets.1 ++ f.render ++ d.brackets.2).toList ++ rest at hs
      rw [hs, String.toList_append, String.toList_append, List.append_assoc, List.append_assoc]
      conv => lhs; rw [hbracket]
      rfl
    have hopen : choice? openings s =
        some (opened, f.render.toList ++ ']' :: (d.brackets.2.toList.tail ++ rest)) := by
      rw [← hopening]
      exact choice?_congr openings (htext.trans ((starts_brackets d).skip_append _).symm)
    have hclose : Closes (']' :: (d.brackets.2.toList.tail ++ rest)) := .of_cons (by simp) _
    rw [edge?, hopen]
    dsimp only
    rw [filler_append hw.filler hp hclose, ok_bind]
    dsimp only
    rw [expectChar_of_skip (skip_cons rfl (by decide)), ok_bind, hclosing hrest]
    rfl

end Parser

end GraphPatterns
