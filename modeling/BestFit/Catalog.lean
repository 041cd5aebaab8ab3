import BestFit.Ctor
import BestFit.TypeDecl

/-! A catalog is the read-only view of a collection of types: it answers what a
handle stands for, and everything else about types is derived from those answers.
A collection that answers a derived question by a rule of its own is no catalog; what
matching makes of one is said by `Typing`. A type source is where catalogs come from:
a state that has a catalog at every moment and hands out array types, which may add a
type to the state. -/
namespace BestFit

/-- The types and constructors known at one moment. Only finitely many handles
have a declaration, and `handles` lists them; the walks over a catalog take their
bounds from it. Nothing is said about how declarations refer to each other: links
may dangle or run in circles. -/
structure Catalog where
  decl? : TypeHandle → Option TypeDecl
  ctor? : CtorHandle → Option Ctor
  handles : List TypeHandle
  mem_handles : ∀ {t d}, decl? t = some d → t ∈ handles

namespace Catalog

variable (c : Catalog) (t : TypeHandle)

/-- Whether the handle has a declaration. -/
def contains : Bool := (c.decl? t).isSome

/-- The name shown for a handle; one without a declaration gets a stand-in. -/
def nameOf : String :=
  match c.decl? t with
  | some d => d.name
  | none => s!"<unknown type {t.index}>"

/-- What is not declared is not public. -/
def isPublic : Bool := (c.decl? t).any TypeDecl.isPublic

/-- The type in whose body a type is declared. -/
def enclosing? : Option TypeHandle := (c.decl? t).bind TypeDecl.enclosing
/-- The direct superclass. -/
def superclass? : Option TypeHandle := (c.decl? t).bind TypeDecl.superclass

/-- The component type, for an array type. -/
def component? : Option TypeHandle := (c.decl? t).bind TypeDecl.component?

/-- Whether a type can be a parameter or the component of an array: every type but
those of null and of nothing. -/
def canHold : Bool := t != .null && t != .void && c.contains t

/-- The types one declared step above a type. -/
def parents : List TypeHandle :=
  match c.decl? t with
  | some d => d.parents
  | none => []

/-- The declared constructors of a type, in declaration order. A listed handle
that the catalog has no constructor for is passed over. -/
def ctorsOf : List Ctor :=
  match c.decl? t with
  | some d => d.ctors.filterMap c.ctor?
  | none => []

/-- A parameter list as shown in messages, such as `(int, String[])`. -/
def signature (params : List TypeHandle) : String :=
  "(" ++ ", ".intercalate (params.map c.nameOf) ++ ")"

theorem contains_iff : c.contains t = true ↔ ∃ d, c.decl? t = some d := by
  simp [contains, Option.isSome_iff_exists]

theorem mem_handles_of_contains {c : Catalog} {t : TypeHandle}
    (h : c.contains t = true) : t ∈ c.handles := by
  obtain ⟨d, hd⟩ := (c.contains_iff t).mp h
  exact c.mem_handles hd

/-- The catalog that knows nothing. -/
def empty : Catalog where
  decl? _ := none
  ctor? _ := none
  handles := []
  mem_handles h := by cases h

end Catalog

/-- How types are obtained from a state of type `σ`. -/
structure TypeSource (σ : Type) where
  catalog : σ → Catalog
  /-- The array type over a component, or the absent handle where the component
  cannot be an array element. The state may gain a type by being asked. -/
  arrayOf : TypeHandle → StateM σ TypeHandle

end BestFit
