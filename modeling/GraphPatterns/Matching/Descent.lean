/-
Stacks that go down. A step of a search takes the top of a stack away and puts finitely many smaller
things in its place. If nothing gets smaller for ever, no stack takes such steps for ever
(`Replaces.wellFounded`).
-/

namespace GraphPatterns

/-- The first stack is the second one with its top replaced by smaller things. -/
inductive Replaces {α : Type} (smaller : α → α → Prop) : List α → List α → Prop where
  | intro {x : α} {rest : List α} (news : List α) (h : ∀ y ∈ news, smaller y x) :
    Replaces smaller (news ++ rest) (x :: rest)

namespace Replaces

variable {α : Type} {smaller : α → α → Prop}

theorem pop (x : α) (rest : List α) : Replaces smaller rest (x :: rest) :=
  .intro [] (by simp)

theorem swap {x y : α} (rest : List α) (h : smaller y x) :
    Replaces smaller (y :: rest) (x :: rest) :=
  .intro [y] (by simpa using h)

theorem grow {x y z : α} (rest : List α) (hy : smaller y x) (hz : smaller z x) :
    Replaces smaller (y :: z :: rest) (x :: rest) :=
  .intro [y, z] (by simp [hy, hz])

theorem acc_nil : Acc (Replaces smaller) [] :=
  .intro _ fun _ h => nomatch h

/-- Things that may be put on any stack that comes to an end may be put there together. -/
theorem acc_append {news rest : List α}
    (h : ∀ y ∈ news, ∀ s, Acc (Replaces smaller) s → Acc (Replaces smaller) (y :: s))
    (hr : Acc (Replaces smaller) rest) : Acc (Replaces smaller) (news ++ rest) := by
  induction news with
  | nil => exact hr
  | cons y news ih =>
    exact h y (by simp) _ (ih fun z hz => h z (by simp [hz]))

theorem acc_cons (wf : WellFounded smaller) (x : α) :
    ∀ s, Acc (Replaces smaller) s → Acc (Replaces smaller) (x :: s) := by
  induction x using wf.induction with
  | _ x ih =>
    intro s hs
    refine .intro _ fun t ht => ?_
    cases ht with
    | intro news h => exact acc_append (fun y hy => ih y (h y hy)) hs

theorem wellFounded (wf : WellFounded smaller) : WellFounded (Replaces smaller) := by
  refine ⟨fun s => ?_⟩
  induction s with
  | nil => exact acc_nil
  | cons x s ih => exact acc_cons wf x s ih

end Replaces

end GraphPatterns
