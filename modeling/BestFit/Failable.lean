/-! Computations that may fail. They work on a state of type `σ`, and what they did
to the state before failing stays done. -/
namespace BestFit

/-- A computation on a state that ends with a result or an error of type `ε`. -/
abbrev Failable (σ ε α : Type) := ExceptT ε (StateM σ) α

namespace Failable

variable {σ ε α β : Type}

/-- The outcome from a given state, with the state it leaves behind. -/
def runFrom (x : Failable σ ε α) (s : σ) : Except ε α × σ := StateT.run (ExceptT.run x) s

/-- The computation that reports a known outcome. -/
def ofExcept (r : Except ε α) : Failable σ ε α := ExceptT.mk (pure r)

@[simp] theorem runFrom_pure (a : α) (s : σ) :
    runFrom (pure a : Failable σ ε α) s = (.ok a, s) := rfl

@[simp] theorem runFrom_throw (e : ε) (s : σ) :
    runFrom (throw e : Failable σ ε α) s = (.error e, s) := rfl

@[simp] theorem runFrom_ofExcept (r : Except ε α) (s : σ) :
    runFrom (ofExcept r : Failable σ ε α) s = (r, s) := rfl

@[simp] theorem runFrom_lift (x : StateM σ α) (s : σ) :
    runFrom (liftM x : Failable σ ε α) s = (.ok (x.run s).1, (x.run s).2) := rfl

/-- The second step runs on what the first left behind, and only if that succeeded. -/
theorem runFrom_bind (x : Failable σ ε α) (f : α → Failable σ ε β) (s : σ) :
    runFrom (x >>= f) s =
      match runFrom x s with
      | (.ok a, s') => runFrom (f a) s'
      | (.error e, s') => (.error e, s') := by
  change StateT.run (StateT.bind x.run fun r => ExceptT.bindCont f r) s = _
  simp only [StateT.run, StateT.bind, runFrom]
  cases h : x.run s with
  | mk r s' => cases r <;> rfl

/-- Two computations with the same outcomes and effects are the same. -/
theorem ext {x y : Failable σ ε α} (h : ∀ s, runFrom x s = runFrom y s) : x = y :=
  funext h

end Failable

end BestFit
