import BestFit.Handle

/-! Constructors as a caller sees them: an owner, a parameter list and modifiers,
without the body. Anyone may write such a description; only the store that
declared a constructor can run it. -/
namespace BestFit

/-- The modifiers of a constructor. -/
structure CtorModifiers where
  isPublic : Bool := false
  /-- The last parameter is an array that collects trailing arguments. -/
  isVariadic : Bool := false
  /-- The constructor may never be unlocked. -/
  isSealed : Bool := false
deriving DecidableEq, Repr

/-- One constructor, as described to callers. -/
structure Ctor where
  handle : CtorHandle
  owner : TypeHandle
  params : List TypeHandle
  modifiers : CtorModifiers := {}
deriving DecidableEq, Repr

namespace Ctor

/-- Whether everyone may call the constructor. -/
def isPublic (k : Ctor) : Bool := k.modifiers.isPublic
/-- Whether the last parameter collects trailing arguments. -/
def isVariadic (k : Ctor) : Bool := k.modifiers.isVariadic
/-- Whether the constructor may never be unlocked. -/
def isSealed (k : Ctor) : Bool := k.modifiers.isSealed
/-- The number of parameters. -/
def arity (k : Ctor) : Nat := k.params.length

/-- The parameters before the collecting one. -/
def fixedParams (k : Ctor) : List TypeHandle := k.params.dropLast

/-- The last parameter, the one that collects in a variadic constructor. -/
def lastParam? (k : Ctor) : Option TypeHandle := k.params.getLast?

end Ctor

end BestFit
