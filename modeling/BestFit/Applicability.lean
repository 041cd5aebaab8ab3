import BestFit.Conversion

/-! Applicability: how a constructor fits a requested list of types. It fits
directly if every requested type converts to the parameter at its place. A
variadic constructor also fits with its last parameter spread: the array gives
way to any number of places of its component type. Which types convert, and what
array types are made of, is told by a typing: a catalog has one that follows from
its declarations, and a collection of types with rules of its own brings another. -/
namespace BestFit

/-- How a constructor fits a request. -/
inductive Fit where
  /-- One requested type for each parameter. -/
  | direct
  /-- The trailing requested types go into the collecting array. -/
  | spread
deriving DecidableEq, Repr

/-- What matching asks about types. The answers need not go together. -/
structure Typing where
  /-- Whether a value of one type may be passed where another is expected. -/
  converts : (boxing : Bool) → TypeHandle → TypeHandle → Bool
  /-- The component type, for an array type. -/
  component? : TypeHandle → Option TypeHandle

namespace Typing

variable (T : Typing)

/-- Conversion position by position, between lists of one length. -/
def convertsAll (boxing : Bool) (as bs : List TypeHandle) : Bool :=
  as.isEqv bs (T.converts boxing)

/-- The parameter list that a constructor presents to a request of length `arity`
under a fit. Spread, the last parameter is replaced by its component type as often
as there are places left; a last parameter that is no array yields the absent
handle there. -/
def formals (k : Ctor) : Fit → (arity : Nat) → List TypeHandle
  | .direct, _ => k.params
  | .spread, arity =>
      match k.lastParam? with
      | none => []
      | some last =>
          k.fixedParams ++
            List.replicate (arity - k.fixedParams.length) ((T.component? last).getD .absent)

/-- Whether a request fits a variadic constructor with its last parameter spread. -/
def fitsSpread (boxing : Bool) (k : Ctor) (request : List TypeHandle) : Bool :=
  match k.lastParam?.bind T.component? with
  | none => false
  | some component =>
      let n := k.fixedParams.length
      n ≤ request.length
        && T.convertsAll boxing (request.take n) k.fixedParams
        && (request.drop n).all (T.converts boxing · component)

/-- How `k` fits the request, if it does; a direct fit comes first. -/
def fit? (boxing : Bool) (k : Ctor) (request : List TypeHandle) : Option Fit :=
  if T.convertsAll boxing request k.params then some .direct
  else if k.isVariadic && T.fitsSpread boxing k request then some .spread
  else none

end Typing

namespace Catalog

variable (c : Catalog)

/-- The typing that follows from the declarations. -/
def typing : Typing where
  converts := c.converts
  component? := c.component?

/-- The parameter list that a constructor presents to a request of length `arity`. -/
def formals (k : Ctor) (f : Fit) (arity : Nat) : List TypeHandle := c.typing.formals k f arity

/-- Whether a request fits a variadic constructor with its last parameter spread. -/
def fitsSpread (boxing : Bool) (k : Ctor) (request : List TypeHandle) : Bool :=
  c.typing.fitsSpread boxing k request

/-- How `k` fits the request, as the declarations have it. -/
def fit? (boxing : Bool) (k : Ctor) (request : List TypeHandle) : Option Fit :=
  c.typing.fit? boxing k request

end Catalog

end BestFit
