/-
Steps on a state that is changed in place, of which one may fail. What has been changed before a step
fails stays changed: a run gives back the state in either case.
-/

namespace GraphPatterns.Steps

variable {ε σ α β : Type}

/-- What the steps answer, and the state after them. -/
def run (c : ExceptT ε (StateM σ) α) (s : σ) : Except ε α × σ := StateT.run (ExceptT.run c) s

theorem run_pure (a : α) (s : σ) : run (pure a : ExceptT ε (StateM σ) α) s = (.ok a, s) := rfl

theorem run_throw (e : ε) (s : σ) : run (throw e : ExceptT ε (StateM σ) α) s = (.error e, s) := rfl

theorem run_get (s : σ) : run (get : ExceptT ε (StateM σ) σ) s = (.ok s, s) := rfl

theorem run_modify (f : σ → σ) (s : σ) :
    run (modify f : ExceptT ε (StateM σ) Unit) s = (.ok (), f s) := rfl

theorem run_ofExcept (x : Except ε α) (s : σ) :
    run (MonadExcept.ofExcept x : ExceptT ε (StateM σ) α) s = (x, s) := by
  cases x <;> rfl

theorem run_bind (c : ExceptT ε (StateM σ) α) (next : α → ExceptT ε (StateM σ) β) (s : σ) :
    run (c >>= next) s =
      match run c s with
      | (.ok a, s) => run (next a) s
      | (.error e, s) => (.error e, s) := by
  simp only [run, ExceptT.run_bind, StateT.run_bind]
  rcases StateT.run (ExceptT.run c) s with ⟨_ | _, _⟩ <;> rfl

theorem run_tryCatch (c : ExceptT ε (StateM σ) α) (handle : ε → ExceptT ε (StateM σ) α) (s : σ) :
    run (tryCatch c handle) s =
      match run c s with
      | (.ok a, s) => (.ok a, s)
      | (.error e, s) => run (handle e) s := by
  simp only [run, tryCatch, tryCatchThe, MonadExceptOf.tryCatch, ExceptT.tryCatch, ExceptT.run_mk,
    StateT.run_bind]
  have hc : StateT.run c s = StateT.run (ExceptT.run c) s := rfl
  rw [hc]
  rcases StateT.run (ExceptT.run c) s with ⟨_ | _, _⟩ <;> rfl

end GraphPatterns.Steps
