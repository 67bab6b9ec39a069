/-
Texts of a single node. What stands after the opening parenthesis is tried as a path between parentheses
first; where no second parenthesis follows it is read as the node. A text that ends there is read as the
pattern of that node alone (`text_node`), and only what was read as the node is in it (`of_text_single`).
-/
import GraphPatterns.Proofs.Grammar

namespace GraphPatterns

open GraphPatterns.Parser

/-- The graph pattern of a single node. -/
def GraphPattern.single (n : NodePattern) : GraphPattern where
  paths := [{ expr := .term [.mk (.node n) none] }]

namespace Parser

variable {r rest : List Char} {n : NodePattern}

/-- No path between parentheses can be read after the parenthesis. -/
def OpensNode (r : List Char) : Prop :=
  ∀ inner : Parse PathExpr, ∃ failure, group inner ('(' :: r) = .error failure

theorem factor?_opensNode (h : OpensNode r) (inner : Parse PathExpr) :
    factor? inner ('(' :: r) = some ((node ('(' :: r)).map fun (n, s) => (.mk (.node n) none, s)) := by
  have hopen : isAt '(' ('(' :: r) = true := rfl
  obtain ⟨failure, hgroup⟩ := h inner
  rw [factor?, hopen, if_pos rfl, hgroup]

/-! ## Texts that start with a parenthesis -/

/-- Such a path has neither a name nor a mode or a search of its own. -/
theorem path_paren (r : List Char) : path ('(' :: r) =
    (pathExprWithin (r.length + 2) ('(' :: r)).map fun (e, s) => ({ expr := e }, s) := by
  have hdeclaration : declaration ('(' :: r) = (none, '(' :: r) := rfl
  have hselector : selectorAndMode ('(' :: r) = .ok ((none, none), '(' :: r) := rfl
  rw [path, hdeclaration]
  dsimp only
  rw [hselector, ok_bind]
  dsimp only
  rw [List.length_cons]
  cases pathExprWithin (r.length + 2) ('(' :: r) <;> rfl

theorem text_paren (r : List Char) : text ('(' :: r) = (do
    let (paths, s) ← separated (char? ',') path ('(' :: r)
    let (c, s) ← condition s
    let s := skip ((char? ';' s).getD s)
    if s.isEmpty then return ⟨none, paths, c⟩ else fail (.unexpectedInput (s.take 16)) s) := by
  have hmatch : (keyword? "MATCH" ('(' :: r)).getD ('(' :: r) = '(' :: r := rfl
  have hmode : matchMode ('(' :: r) = .ok (none, '(' :: r) := rfl
  rw [text, hmatch, graph, hmode, ok_bind]
  dsimp only
  cases separated (char? ',') path ('(' :: r) with
  | error failure => rfl
  | ok found =>
    rw [ok_bind, ok_bind]
    cases condition found.2 <;> rfl

theorem text_node (h : OpensNode r) (hnode : node ('(' :: r) = .ok (n, [])) :
    text ('(' :: r) = .ok (.single n) := by
  have hexpr (depth : Nat) : pathExprWithin (depth + 1) ('(' :: r) = .ok (.term [.mk (.node n) none], []) := by
    have hterm : term (pathExprWithin depth) ('(' :: r) = .ok ([.mk (.node n) none], []) := by
      have hnone : factors (pathExprWithin depth) ('(' :: r).length [] = .ok ([], []) := rfl
      rw [term, factors, factor?_opensNode h, hnode]
      dsimp only
      rw [ok_map, ok_bind]
      dsimp only
      rw [hnone]
      rfl
    rw [pathExprWithin, pathExprOver, hterm]
    rfl
  have hpath : path ('(' :: r) = .ok ({ expr := .term [.mk (.node n) none] }, []) := by
    rw [path_paren, hexpr]
    rfl
  rw [text_paren, separated, hpath]
  rfl

/-- The node of the pattern is the one that was read. -/
theorem of_text_single (h : OpensNode r) (htext : text ('(' :: r) = .ok (.single n)) :
    ∃ s, node ('(' :: r) = .ok (n, s) := by
  rw [text_paren] at htext
  obtain ⟨⟨paths, s₁⟩, hpaths, htext⟩ := Except.bind_eq_ok_iff.mp htext
  obtain ⟨⟨c, s₂⟩, -, htext⟩ := Except.bind_eq_ok_iff.mp htext
  have hsingle : paths = [{ expr := .term [.mk (.node n) none] }] := by
    dsimp only at htext
    split at htext
    · exact congrArg GraphPattern.paths (Except.ok.inj htext)
    · cases htext
  obtain ⟨p, ps, s₃, hcons, hpath, -⟩ := of_separated hpaths
  obtain ⟨rfl, -⟩ := List.cons.inj (hcons.symm.trans hsingle)
  rw [path_paren] at hpath
  obtain ⟨⟨e, s₄⟩, he, heq⟩ := Except.map_eq_ok_iff.mp hpath
  have hexpr : e = .term [.mk (.node n) none] := congrArg PathPattern.expr (Prod.mk.inj heq).1
  obtain ⟨t, ts, s₅, hterm, hterms, -⟩ := of_pathExprOver he
  rw [hexpr] at hterms
  obtain ⟨rfl, -⟩ := List.cons.inj hterms
  obtain ⟨-, bound, s₆, hfactors⟩ := of_term hterm
  obtain hnil | ⟨f, fs, s₇, hcons, hfactor, -⟩ := of_factors_succ hfactors
  · cases hnil
  · obtain ⟨rfl, -⟩ := List.cons.inj hcons
    rw [factor?_opensNode h] at hfactor
    obtain ⟨⟨n', s⟩, hnode, heq⟩ := Except.map_eq_ok_iff.mp (Option.some.inj hfactor)
    obtain ⟨hfactor, -⟩ := Prod.mk.inj heq
    cases hfactor
    exact ⟨s, hnode⟩

end Parser

end GraphPatterns
