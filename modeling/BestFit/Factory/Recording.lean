import BestFit.Factory

/-! Recording: a factory that keeps a list of the constructors that it tried to
unlock, beside the state that it works on. -/
namespace BestFit

variable {σ π : Type}

/-- A computation on the first of two states. -/
def onFirst {ρ α : Type} (x : StateM σ α) : StateM (σ × ρ) α := fun s =>
  let (a, first) := x.run s.1
  (a, (first, s.2))

namespace Factory

/-- The same factory on a state with a record, last attempt last. -/
def recording (F : Factory σ π) : Factory (σ × List CtorHandle) π where
  source :=
    { catalog := fun s => F.source.catalog s.1
      arrayOf := fun component => onFirst (F.source.arrayOf component) }
  unlock k := do
    modify fun s => (s.1, s.2 ++ [k.handle])
    onFirst (F.unlock k)
  instantiate k args := ExceptT.mk (onFirst (F.instantiate k args).run)
  policy := F.policy

end Factory

end BestFit
