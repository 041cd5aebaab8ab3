import BestFit.Conversion
import BestFit.Datum.Widening
import BestFit.Failable

/-! Shaping: turning the arguments of a call into the list that a constructor body
receives. Trailing arguments of a variadic constructor are gathered into an array;
then every argument is accepted at its parameter, and primitive ones take the
parameter's type. To learn the type of an array argument is to ask for an array
type, so shaping works on the state of a type source. -/
namespace BestFit

/-- Why arguments cannot be shaped. Positions count from zero; types are named as
the catalog names them. -/
inductive ArgumentError where
  | wrongCount (expected actual : Nat)
  | tooFew (fixed actual : Nat)
  | nullAtPrimitive (index : Nat) (expected : String)
  | unconvertible (index : Nat) (expected found : String)
  /-- The collecting parameter of a variadic constructor is no array. -/
  | notAnArray (param : String)
deriving DecidableEq, Repr

/-- The text of the error. -/
def ArgumentError.message : ArgumentError → String
  | wrongCount expected actual => s!"expected {expected} arguments, got {actual}"
  | tooFew fixed actual =>
      s!"variadic constructor needs at least {fixed} leading arguments, got {actual}"
  | nullAtPrimitive index expected =>
      s!"argument {index} is null but parameter type {expected} is primitive"
  | unconvertible index expected found =>
      s!"argument {index} of type {found} does not convert to {expected}"
  | notAnArray param => s!"variadic parameter type {param} is not an array"

namespace TypeSource

variable {σ π : Type} (S : TypeSource σ)

/-- The catalog of the present moment. -/
def view : StateM σ Catalog := do return S.catalog (← get)

/-! ## Types of data -/

/-- The type of a datum as an argument. An unboxed one counts as boxed. -/
def typeOf : Datum π → StateM σ TypeHandle
  | .null => return .null
  | .string _ => return .string
  | .array component _ => S.arrayOf component
  | .object a => return a.type
  | a => return (a.primitive?.bind Primitive.wrapper?).getD .object

/-- The types of an argument list, asked for from left to right. -/
def typesOf : List (Datum π) → StateM σ (List TypeHandle)
  | [] => return []
  | a :: as => do
      let t ← S.typeOf a
      let ts ← typesOf as
      return t :: ts

/-! ## Acceptance -/

/-- Accepts a datum where type `t` is expected. A primitive type takes whatever
widens to it, but not null. A reference type takes null and every datum whose type
converts to it; as the types of data are boxed already, no further boxing applies. -/
def accept (index : Nat) (t : TypeHandle) (a : Datum π) :
    Failable σ ArgumentError (Datum π) := do
  match Primitive.ofHandle? t with
  | some p =>
      if a.isNull then throw (.nullAtPrimitive index ((← S.view).nameOf t))
      else match a.widenTo p with
        | some b => return b
        | none =>
            let found ← S.typeOf a
            let c ← S.view
            throw (.unconvertible index (c.nameOf t) (c.nameOf found))
  | none =>
      if a.isNull then return a
      else
        let found ← S.typeOf a
        let c ← S.view
        if c.converts false found t then return a
        else throw (.unconvertible index (c.nameOf t) (c.nameOf found))

/-- Accepts data one by one, the first of them at position `index`. The first error
ends it. -/
def acceptAll : (index : Nat) → List TypeHandle → List (Datum π) →
    Failable σ ArgumentError (List (Datum π))
  | index, t :: ts, a :: as => do
      let b ← S.accept index t a
      let bs ← acceptAll (index + 1) ts as
      return b :: bs
  | _, _, _ => return []

/-- Accepts an argument list at the parameters of a constructor. -/
def conform (k : Ctor) (args : List (Datum π)) :
    Failable σ ArgumentError (List (Datum π)) :=
  if args.length = k.arity then S.acceptAll 0 k.params args
  else throw (.wrongCount k.arity args.length)

/-! ## Gathering -/

/-- Whether the last argument can stand at the collecting parameter `last` as it
is: null can, and an array of that very type. -/
def fillsLast (last : TypeHandle) : Option (Datum π) → StateM σ Bool
  | some .null => return true
  | some (.array component _) => do return (← S.arrayOf component) == last
  | _ => return false

/-- Replaces the arguments from position `fixed` on by one array of them. -/
def gatherFrom (fixed : Nat) (component : TypeHandle) (args : List (Datum π)) :
    Failable σ ArgumentError (List (Datum π)) := do
  if args.length < fixed then throw (.tooFew fixed args.length)
  else
    let trailing := args.drop fixed
    let items ← S.acceptAll fixed (List.replicate trailing.length component) trailing
    return args.take fixed ++ [.array component items]

/-- Shapes an argument list to the parameters of a variadic constructor. It stays
as it is if there is nothing to gather: the constructor is not variadic, or the
argument in the last place fills the collecting parameter. -/
def gather (k : Ctor) (args : List (Datum π)) :
    Failable σ ArgumentError (List (Datum π)) := do
  match k.isVariadic, k.lastParam? with
  | true, some last =>
      let c ← S.view
      match c.component? last with
      | none => throw (.notAnArray (c.nameOf last))
      | some component =>
          let filled ← if args.length = k.arity then S.fillsLast last args.getLast? else pure false
          if filled then return args
          else S.gatherFrom k.fixedParams.length component args
  | _, _ => return args

end TypeSource

end BestFit
