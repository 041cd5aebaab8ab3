import BestFit.Store

/-! Unlocking: a store may open a constructor that callers could not reach
otherwise. What was unlocked stays so. -/
namespace BestFit.Store

variable {ω π : Type} (s : Store ω π)

/-- Whether a constructor was unlocked before. -/
def isUnlocked (k : CtorHandle) : Bool := s.unlocked.contains k

/-- Whether a description agrees with a stored constructor on handle and owner. -/
def owns (k : Ctor) : Bool := (s.entry? k.handle).any (·.ctor.owner == k.owner)

/-- Unlocks a constructor, as described, and tells whether it is unlocked now. One
that the description seals is not unlocked, unless that was done before. -/
def unlock (k : Ctor) : StateM (Store ω π) Bool := fun s =>
  if !s.owns k then (false, s)
  else if s.isUnlocked k.handle then (true, s)
  else if k.isSealed then (false, s)
  else (true, { s with unlocked := k.handle :: s.unlocked })

end BestFit.Store
