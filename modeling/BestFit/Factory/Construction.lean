import BestFit.Factory.Selection

/-! Construction: a request is answered with a constructor, the arguments are shaped
to it, and the constructor is run on them. -/
namespace BestFit

/-- A constructor with the arguments that it is to be run on. -/
structure Call (π : Type) where
  ctor : Ctor
  args : List (Datum π)

namespace Factory

variable {σ π : Type} (F : Factory σ π)

/-- Reports an argument error of a construction of type `t`. -/
def shaped {α : Type} (t : TypeHandle) (x : Failable σ ArgumentError α) :
    Failable σ FactoryError α := do
  match ← x.run with
  | .ok a => return a
  | .error e => throw (.badArguments ((← F.source.view).nameOf t) e)

/-- The constructor that was found, or the error that there is none. -/
def found (t : TypeHandle) (request : List TypeHandle) (k : Option Ctor) :
    Failable σ FactoryError Ctor := do
  match k with
  | some k => return k
  | none =>
      let c ← F.source.view
      throw (.notFound (c.nameOf t) (c.signature request))

/-! ## Calls -/

/-- The call that the best constructor for a request amounts to. -/
def bestCall (t : TypeHandle) (args : List (Datum π)) (request : List TypeHandle) :
    Failable σ FactoryError (Call π) := do
  let k ← F.found t request (← F.bestCtor? t request)
  let gathered ← F.shaped t (F.source.gather k args)
  let args ← F.shaped t (F.source.conform k gathered)
  return ⟨k, args⟩

/-- The call that the exact constructor for a request amounts to. Arguments are never
gathered for it. -/
def exactCall (t : TypeHandle) (args : List (Datum π)) (request : List TypeHandle) :
    Failable σ FactoryError (Call π) := do
  let k ← F.found t request (← F.exactCtor? t request)
  let args ← F.shaped t (F.source.conform k args)
  return ⟨k, args⟩

/-- Runs a call. A failure of it becomes the error of the request. -/
def run (call : Call π) : Failable σ FactoryError (Instance π) :=
  (F.instantiate call.ctor call.args).adapt .target

/-! ## Making instances -/

/-- Makes an instance with the best constructor for the given types. -/
def makeAs (t : TypeHandle) (args : List (Datum π)) (request : List TypeHandle) :
    Failable σ FactoryError (Instance π) := do
  F.run (← F.bestCall t args request)

/-- Makes an instance with the best constructor for the types of the arguments. -/
def make (t : TypeHandle) (args : List (Datum π)) : Failable σ FactoryError (Instance π) := do
  F.makeAs t args (← F.source.typesOf args)

/-- Makes an instance with the exact constructor for the given types. -/
def makeExactAs (t : TypeHandle) (args : List (Datum π)) (request : List TypeHandle) :
    Failable σ FactoryError (Instance π) := do
  F.run (← F.exactCall t args request)

/-- Makes an instance with the exact constructor for the types of the arguments. -/
def makeExact (t : TypeHandle) (args : List (Datum π)) :
    Failable σ FactoryError (Instance π) := do
  F.makeExactAs t args (← F.source.typesOf args)

end Factory

end BestFit
