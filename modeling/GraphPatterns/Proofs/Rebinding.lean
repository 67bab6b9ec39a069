/-
Bindings in another form. Two searches of one store may keep what is bound in different ways. Where a
change from one form to the other goes along with what the moves of a pattern do to bindings
(`Rebinds`), it goes along with the ways of the pattern: the ways from a changed stage are the ways
from the stage, changed (`PathExpr.ways_rebind`). That is the case of sifted ways in which nothing is
given up.
-/
import GraphPatterns.Proofs.Sifting

namespace GraphPatterns

/-- A change of bindings from one search to another, under an invariant of the first one, that goes along
with what the moves at some places do to bindings. -/
structure Rebinds (places : List Place) (env env' : Env) (inv : Bindings → Prop)
    (change : Bindings → Bindings) : Prop where
  store : env'.store = env.store
  keeps : Moves places (Stage.Keeps env inv)
  admits : ∀ {bindings : Bindings}, inv bindings → ∀ (f : Filler) (grouped : Bool)
    (taken : Option ElementId) (x : ElementId),
    f.admits env' (change bindings) grouped taken x = f.admits env bindings grouped taken x
  insertNew : ∀ (bindings : Bindings) (name : String) (b : Bound),
    change (bindings.insertNew name b) = (change bindings).insertNew name b
  collect : ∀ (bindings : Bindings), ∀ name ∈ Place.groupNames places, ∀ x : ElementId,
    change (Thread.collect bindings name x) = Thread.collect (change bindings) name x
  closeGroup? : ∀ {bindings : Bindings}, inv bindings → ∀ (sub : Path) (name : Option String)
    (condition : Option Expr) (grouped : Bool),
    Thread.closeGroup? env' (change bindings) sub name condition grouped =
      (Thread.closeGroup? env bindings sub name condition grouped).map change

section Ways

variable {places : List Place} {env env' : Env} {inv : Bindings → Prop} {change : Bindings → Bindings}

theorem Stage.sift_all (us : List Stage) :
    sift (fun _ => true) change us = us.map (rebind change) := by
  rw [sift, List.filter_true]

theorem Rebinds.bind (h : Rebinds places env env' inv change) (s : Stage) {l : Place} (hl : l ∈ places)
    {f : Filler} {repeated : Bool} (hf : l.filler? = some (f, repeated)) (x : ElementId) :
    (s.rebind change).bind f.name repeated x = (s.bind f.name repeated x).rebind change := by
  refine s.bind_rebind x (fun own _ _ => h.insertNew s.bindings own _) fun own hname hrepeated => ?_
  exact h.collect s.bindings own (Place.mem_groupNames_of_filler? hl (hrepeated ▸ hf) hname) x

/-- A change of bindings sifts nothing. -/
theorem Rebinds.sifts (h : Rebinds places env env' inv change) :
    Sifts places env env' inv (fun _ => true) change where
  store := h.store
  keeps := h.keeps
  loses := Stage.keeps_moves (fun _ {_ _ _} _ _ _ _ hs => hs) fun _ _ hs => hs
  bind hs _ l hl f repeated hf x := by
    rw [h.admits hs, Stage.sift_all]
    split
    · exact congrArg ([·]) (h.bind _ hl hf x)
    · rfl
  closeGroup? hs _ name _ condition repeated _ sub := by
    rw [h.closeGroup? hs sub name condition repeated]
    cases Thread.closeGroup? env _ sub name condition repeated <;> rfl

/-- **The ways from a changed stage are the ways from the stage, changed.** -/
theorem PathExpr.ways_rebind (h : Rebinds places env env' inv change) (x : PathExpr) (c : Surroundings)
    (s : Stage) (hc : c.env = env) (hs : inv s.bindings) (hp : x.places c.repeated ⊆ places) :
    x.ways (c.withEnv env') (s.rebind change) = (x.ways c s).map (Stage.rebind change) := by
  rw [x.ways_sift h.sifts c s hc hs rfl hp, Stage.sift_all]

end Ways

end GraphPatterns
