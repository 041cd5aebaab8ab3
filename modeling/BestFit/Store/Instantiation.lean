import BestFit.Failable
import BestFit.Store.Unlocking

/-! Instantiation: running the body of a constructor. -/
namespace BestFit

/-- Why no instance was made. Types are named as the store names them. -/
inductive TargetFailure where
  | abstractType (owner : String)
  /-- The constructor is neither exposed nor unlocked, or not of this store. -/
  | inaccessible (owner : String)
  | bodyFailed (owner : String) (cause : Failure)
deriving DecidableEq, Repr

namespace TargetFailure

/-- The text of the failure. -/
def message : TargetFailure → String
  | abstractType owner => s!"cannot instantiate abstract type {owner}"
  | inaccessible owner => s!"constructor of {owner} is not accessible"
  | bodyFailed owner cause => s!"constructor of {owner} failed: {cause.message}"

/-- The failure of the body, if that is what happened. -/
def cause? : TargetFailure → Option Failure
  | bodyFailed _ cause => some cause
  | abstractType _ | inaccessible _ => none

/-- The messages behind this one, nearest first. -/
def causes (e : TargetFailure) : List String :=
  match e.cause? with
  | some cause => cause.message :: cause.causes
  | none => []

end TargetFailure

namespace Store

variable {ω π : Type} (s : Store ω π)

/-- The body that runs for a description, if one may run at all: the store owns it,
the owner has instances of its own, and the description is exposed or unlocked. -/
def bodyFor (k : Ctor) : Except TargetFailure (Body ω π) :=
  let c := s.catalog
  match s.entry? k.handle with
  | none => .error (.inaccessible (c.nameOf k.owner))
  | some e =>
      if e.ctor.owner ≠ k.owner then .error (.inaccessible (c.nameOf k.owner))
      else if (c.decl? k.owner).all TypeDecl.isAbstract then
        .error (.abstractType (c.nameOf k.owner))
      else if c.exposes k || s.isUnlocked k.handle then .ok e.body
      else .error (.inaccessible (c.nameOf k.owner))

/-- Runs a computation on the world of a store, the rest of which it leaves as it is. -/
def onWorld {α : Type} (x : StateM ω α) : StateM (Store ω π) α := fun s =>
  let (a, world) := x.run s.world
  (a, { s with world })

/-- Makes an instance: runs the body on the arguments, which are taken as they are. -/
def instantiate (k : Ctor) (args : List (Datum π)) :
    Failable (Store ω π) TargetFailure (Instance π) := do
  let s ← get
  match s.bodyFor k with
  | .error e => throw e
  | .ok body =>
      match ← liftM (onWorld (body args).run : StateM (Store ω π) _) with
      | .error cause => throw (.bodyFailed (s.catalog.nameOf k.owner) cause)
      | .ok payload =>
          modify fun s => { s with made := s.made + 1 }
          return { type := k.owner, identity := ⟨s.serial, s.made⟩, payload }

end Store

end BestFit
