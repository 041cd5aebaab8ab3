import BestFit.Store

/-! Declaring: adding classes and interfaces with their constructors to a store.
A definition is checked as a whole first, so a refused one leaves no trace. -/
namespace BestFit

/-- A constructor to be declared. -/
structure CtorDefinition (ω π : Type) where
  params : List TypeHandle
  modifiers : CtorModifiers := {}
  body : Body ω π

/-- The constructor as it is stored under a handle. -/
def CtorDefinition.storedAs {ω π : Type} (k : CtorDefinition ω π) (handle : CtorHandle)
    (owner : TypeHandle) : StoredCtor ω π where
  ctor := { handle, owner, params := k.params, modifiers := k.modifiers }
  body := k.body

/-- What a definition can introduce. -/
inductive DefinitionSort where
  | classType
  | interface
deriving DecidableEq, Repr

/-- The shape of the types of that sort. -/
def DefinitionSort.shape : DefinitionSort → Shape
  | classType => .classType
  | interface => .interface

/-- A class or interface to be declared. -/
structure Definition (ω π : Type) where
  name : String
  sort : DefinitionSort
  modifiers : TypeModifiers := {}
  superclass : Option TypeHandle := none
  interfaces : List TypeHandle := []
  enclosing : Option TypeHandle := none
  ctors : List (CtorDefinition ω π) := []

namespace Definition

variable {ω π : Type}

/-- A class directly below the root class, not public. -/
def ofClass (name : String) : Definition ω π :=
  { name, sort := .classType, superclass := some .object }

/-- An interface, not public. It is abstract and has no superclass, unless the
definition is given one. -/
def ofInterface (name : String) : Definition ω π :=
  { name, sort := .interface, modifiers := { isAbstract := true } }

/-- The declaration of the type that is defined, given the handles of its constructors. -/
def declaredAs (d : Definition ω π) (handle : TypeHandle) (ctors : List CtorHandle) : TypeDecl where
  handle := handle
  name := d.name
  shape := d.sort.shape
  modifiers := d.modifiers
  superclass := d.superclass
  interfaces := d.interfaces
  enclosing := d.enclosing
  ctors := ctors

end Definition

/-- Why a definition is refused. -/
inductive DeclareError where
  | nameTaken (name : String)
  | unknownType (owner : String) (referenced : TypeHandle)
  /-- The superclass is no class, or one that cannot be extended. -/
  | notExtensible (owner superclass : String)
  | notAnInterface (owner interface : String)
  | ctorOfInterface (owner : String)
  | noCollectingArray (owner : String)
  | repeatedSignature (owner signature : String)
deriving DecidableEq, Repr

/-- The text of the error. -/
def DeclareError.message : DeclareError → String
  | nameTaken name => s!"type `{name}` is already registered"
  | unknownType owner referenced =>
      s!"type `{owner}` references unknown type {referenced.describe}"
  | notExtensible owner superclass =>
      s!"superclass of `{owner}` must be a class, found `{superclass}`"
  | notAnInterface owner interface =>
      s!"`{owner}` implements `{interface}`, which is not an interface"
  | ctorOfInterface owner => s!"interface `{owner}` cannot declare constructors"
  | noCollectingArray owner =>
      s!"variadic constructor of `{owner}` must end in an array parameter"
  | repeatedSignature owner signature =>
      s!"`{owner}` declares two constructors with signature {signature}"

/-! ## Checks -/

namespace Catalog

variable {ω π : Type} (c : Catalog)

/-- A superclass is a class that can be extended. -/
def checkSuperclass (owner : String) (t : TypeHandle) : Except DeclareError Unit :=
  match c.decl? t with
  | none => .error (.unknownType owner t)
  | some d =>
      if d.shape = .classType ∧ !d.modifiers.isFinal then .ok ()
      else .error (.notExtensible owner d.name)

/-- What is implemented, or for an interface extended, is an interface. -/
def checkInterface (owner : String) (t : TypeHandle) : Except DeclareError Unit :=
  match c.decl? t with
  | none => .error (.unknownType owner t)
  | some d => if d.shape = .interface then .ok () else .error (.notAnInterface owner d.name)

/-- The type in whose body another one is declared can be any. -/
def checkEnclosing (owner : String) (t : TypeHandle) : Except DeclareError Unit :=
  if c.contains t then .ok () else .error (.unknownType owner t)

/-- Checks one constructor, given the parameter lists of those before it. -/
def checkCtor (owner : String) (earlier : List (List TypeHandle)) (k : CtorDefinition ω π) :
    Except DeclareError Unit :=
  match k.params.find? fun t => !c.canHold t with
  | some t => .error (.unknownType owner t)
  | none =>
      if k.modifiers.isVariadic ∧ (k.params.getLast?.bind c.component?).isNone then
        .error (.noCollectingArray owner)
      else if k.params ∈ earlier then
        .error (.repeatedSignature owner (c.signature k.params))
      else .ok ()

/-- Checks constructors in their order. -/
def checkCtors (owner : String) : (earlier : List (List TypeHandle)) → List (CtorDefinition ω π) →
    Except DeclareError Unit
  | _, [] => .ok ()
  | earlier, k :: ks => do
      c.checkCtor owner earlier k
      checkCtors owner (k.params :: earlier) ks

/-- Checks all of a definition but its name. Where several rules are broken the first one
counts. -/
def check (d : Definition ω π) : Except DeclareError Unit := do
  d.superclass.forM (c.checkSuperclass d.name)
  d.interfaces.forM (c.checkInterface d.name)
  d.enclosing.forM (c.checkEnclosing d.name)
  if d.sort = .interface ∧ !d.ctors.isEmpty then throw (.ctorOfInterface d.name)
  c.checkCtors d.name [] d.ctors

end Catalog

namespace Store

variable {ω π : Type} (s : Store ω π)

/-- Checks a definition. The name comes last. -/
def check (d : Definition ω π) : Except DeclareError Unit := do
  s.catalog.check d
  if (s.lookup d.name).isSome then throw (.nameTaken d.name)

/-! ## Growth -/

/-- The constructors of a definition as they will be stored. -/
def storedCtors (d : Definition ω π) : List (StoredCtor ω π) :=
  d.ctors.mapIdx fun i k => k.storedAs (s.nextCtor i) s.nextType

/-- The declaration of the type that a definition introduces. -/
def declOf (d : Definition ω π) : TypeDecl :=
  d.declaredAs s.nextType ((List.range d.ctors.length).map s.nextCtor)

/-- Adds a definition to the store and gives the handle of its type. -/
def declare (d : Definition ω π) : Except DeclareError (TypeHandle × Store ω π) := do
  s.check d
  return (s.nextType,
    { s with types := s.types.push (s.declOf d), ctors := s.ctors ++ s.storedCtors d })

end Store

end BestFit
