import BestFit.Policy
import BestFit.Shaping
import BestFit.Store.Instantiation

/-! A factory finds constructors for requests and makes instances with them. Its
parts all work on one state, which may hold several stores: where types come from,
what unlocks a constructor and what runs one need not be the same store. -/
namespace BestFit

/-- The parts that find constructors and make instances, with the policy that they go by. -/
structure Factory (σ π : Type) where
  source : TypeSource σ
  /-- Tries to unlock a constructor, and tells whether it is unlocked now. -/
  unlock : Ctor → StateM σ Bool
  /-- Runs a constructor on shaped arguments. -/
  instantiate : Ctor → List (Datum π) → Failable σ TargetFailure (Instance π)
  policy : Policy := {}

/-- Why no constructor was found, or why it made no instance. -/
inductive FactoryError where
  | noType
  | unknownType (t : TypeHandle)
  /-- No constructor fits, or none that fits may be used: callers are not told which. -/
  | notFound (owner signature : String)
  | badArguments (owner : String) (cause : ArgumentError)
  | target (failure : TargetFailure)
deriving DecidableEq, Repr

namespace FactoryError

/-- The text of the error. -/
def message : FactoryError → String
  | noType => "type handle is absent"
  | unknownType t => s!"unknown type handle {t.describe}"
  | notFound owner signature =>
      s!"No such accessible constructor on object: {owner}{signature}"
  | badArguments owner cause =>
      s!"invalid arguments for constructor of {owner}: {cause.message}"
  | target failure => failure.message

/-- The messages behind this one, nearest first. A target failure takes the place of
the whole error. -/
def causes : FactoryError → List String
  | badArguments _ cause => [cause.message]
  | target failure => failure.causes
  | noType | unknownType _ | notFound .. => []

/-- Whether no constructor was found. -/
def isNotFound : FactoryError → Bool
  | notFound .. => true
  | _ => false

/-- The failure of the constructor that was run, if one was. -/
def targetFailure? : FactoryError → Option TargetFailure
  | target failure => some failure
  | _ => none

end FactoryError

namespace Store

variable {ω π : Type}

/-- The factory in which one store plays every part. -/
def factory (policy : Policy) : Factory (Store ω π) π where
  source := source
  unlock := unlock
  instantiate := instantiate
  policy := policy

end Store

end BestFit
