import BestFit.Primitive

/-! What a catalog records about one type. -/
namespace BestFit

/-- What sort of type a declaration introduces. -/
inductive Shape where
  /-- The type of the null value. -/
  | null
  | primitive (kind : Primitive)
  | classType
  | interface
  | array (component : TypeHandle)
deriving DecidableEq, Repr

/-- The modifiers of a type. -/
structure TypeModifiers where
  isPublic : Bool := false
  isAbstract : Bool := false
  isFinal : Bool := false
deriving DecidableEq, Repr

/-- One declared type. -/
structure TypeDecl where
  handle : TypeHandle
  name : String
  shape : Shape
  modifiers : TypeModifiers := {}
  /-- The direct superclass, where there is one. -/
  superclass : Option TypeHandle := none
  /-- The interfaces implemented, or for an interface extended, directly. -/
  interfaces : List TypeHandle := []
  /-- The type in whose body this one is declared. -/
  enclosing : Option TypeHandle := none
  /-- The declared constructors, in declaration order. -/
  ctors : List CtorHandle := []
deriving DecidableEq, Repr

namespace TypeDecl

/-- Whether the type is open to everyone, as far as it goes itself. -/
def isPublic (d : TypeDecl) : Bool := d.modifiers.isPublic

/-- Abstract classes and interfaces have no instances of their own. -/
def isAbstract (d : TypeDecl) : Bool :=
  d.modifiers.isAbstract || d.shape == .interface

/-- The primitive, for a primitive type. -/
def primitive? (d : TypeDecl) : Option Primitive :=
  match d.shape with
  | .primitive p => some p
  | _ => none

/-- The component type, for an array type. -/
def component? (d : TypeDecl) : Option TypeHandle :=
  match d.shape with
  | .array c => some c
  | _ => none

/-- The declaration of the array type `t` over a component declared as `d`. It is public if
its component is, and cannot be extended. -/
def arrayOver (t component : TypeHandle) (d : TypeDecl) : TypeDecl :=
  { handle := t
    name := d.name ++ "[]"
    shape := .array component
    modifiers := { isPublic := d.isPublic, isFinal := true }
    superclass := some .object }

/-- The types one declared step above this one, the superclass first. -/
def parents (d : TypeDecl) : List TypeHandle :=
  d.superclass.toList ++ d.interfaces

end TypeDecl

end BestFit
