import BestFit.Catalog.Builtin
import BestFit.Datum
import BestFit.Exposure
import BestFit.Failable

/-! A store keeps declared types together with the bodies of their constructors. It
starts with the built-in types and only ever grows: a type or constructor, once
stored, keeps its handle and its declaration. Bodies are programs: each works on a
world of its own choosing, of type `ω`, and leaves it changed when it fails, too.

Two things are left out. Handles are counted without end: laid out with counters of
thirty-two bits, a store behaves the same until these are used up, which
`Tables.represents_run` makes precise. And a store is asked one thing at a time: what
callers that come at the same moment see of each other is not described. -/
namespace BestFit

/-- Why a constructor body failed, with the causes behind it, nearest first. -/
structure Failure where
  message : String
  causes : List String := []
deriving DecidableEq, Repr

/-- The body of a constructor: from arguments to what the instance holds, with whatever
it does to the world on the way. -/
abbrev Body (ω π : Type) := List (Datum π) → Failable ω Failure π

/-- A stored constructor. -/
structure StoredCtor (ω π : Type) where
  ctor : Ctor
  body : Body ω π

/-- Types and constructors, each at the place that its handle counts. -/
structure Store (ω π : Type) where
  /-- Tells the instances of this store from those of others. -/
  serial : Nat
  /-- The types beyond the built-in ones. -/
  types : Array TypeDecl := #[]
  ctors : Array (StoredCtor ω π) := #[]
  /-- The constructors that were unlocked. -/
  unlocked : List CtorHandle := []
  /-- How many instances were made so far. -/
  made : Nat := 0
  /-- What the bodies work on. The store itself never looks at it. -/
  world : ω

namespace Store

variable {ω π : Type} (s : Store ω π)

/-! ## Looking up -/

/-- The declaration of a type. The lower handles are those of the built-in types. -/
def decl? (t : TypeHandle) : Option TypeDecl :=
  if t.index < TypeHandle.firstDeclared then Builtin.decl? t
  else s.types[t.index - TypeHandle.firstDeclared]?

/-- The constructor stored under a handle. -/
def entry? (k : CtorHandle) : Option (StoredCtor ω π) :=
  if k.isPresent then s.ctors[k.index - CtorHandle.firstDeclared]? else none

/-- A stored constructor as described to callers. -/
def ctor? (k : CtorHandle) : Option Ctor := (s.entry? k).map StoredCtor.ctor

/-- The handle that the next type gets. -/
def nextType : TypeHandle := ⟨TypeHandle.firstDeclared + s.types.size⟩

/-- The handle that the constructor stored after `n` more gets. -/
def nextCtor (n : Nat) : CtorHandle := ⟨CtorHandle.firstDeclared + s.ctors.size + n⟩

/-- Every type in the order of handles. -/
def decls : List TypeDecl := Builtin.decls ++ s.types.toList

/-- The handles of all types. -/
def handles : List TypeHandle :=
  Builtin.handles ++
    (List.range s.types.size).map fun i => ⟨TypeHandle.firstDeclared + i⟩

/-- How many types there are, built-in and array types included. -/
def size : Nat := s.decls.length

/-- The type found under a name: the first that was given it. -/
def lookup (name : String) : Option TypeHandle :=
  (s.decls.find? (·.name == name)).map TypeDecl.handle

theorem mem_handles {t : TypeHandle} {d : TypeDecl} (h : s.decl? t = some d) :
    t ∈ s.handles := by
  unfold decl? at h
  split at h
  · exact List.mem_append_left _ (Builtin.mem_handles h)
  · obtain ⟨hi, -⟩ := Array.getElem?_eq_some_iff.mp h
    refine List.mem_append_right _ (List.mem_map.mpr ⟨_, List.mem_range.mpr hi, ?_⟩)
    cases t
    simp only [TypeHandle.mk.injEq]
    simp only at *
    omega

/-- Adding a type leaves the declarations of the others as they are. -/
theorem decl?_push_of_decl? {t : TypeHandle} {d : TypeDecl} (added : TypeDecl)
    (h : s.decl? t = some d) : decl? { s with types := s.types.push added } t = some d := by
  unfold decl? at h ⊢
  split at h
  · next hlow =>
    rw [if_pos hlow]
    exact h
  · next hlow =>
    obtain ⟨hi, -⟩ := Array.getElem?_eq_some_iff.mp h
    rw [if_neg hlow, Array.getElem?_push, if_neg (by omega)]
    exact h

/-- The type that is added is found under the handle that was due. -/
@[simp] theorem decl?_push_nextType (added : TypeDecl) :
    decl? { s with types := s.types.push added } s.nextType = some added := by
  have hlow : ¬TypeHandle.firstDeclared + s.types.size < TypeHandle.firstDeclared := by omega
  simp [decl?, nextType, hlow]

/-- What the store knows at present. -/
def catalog : Catalog where
  decl? := s.decl?
  ctor? := s.ctor?
  handles := s.handles
  mem_handles := s.mem_handles

/-! ## Array types -/

/-- Whether a type can be a parameter or the component of an array. -/
def canHold (t : TypeHandle) : Bool := s.catalog.canHold t

/-- The array type already stored for a component. -/
def array? (component : TypeHandle) : Option TypeHandle :=
  (s.types.find? fun d => d.component? == some component).map TypeDecl.handle

/-- The declaration of the next array type, over a component declared as `d`. -/
def arrayDecl (component : TypeHandle) (d : TypeDecl) : TypeDecl :=
  .arrayOver s.nextType component d

/-- The array type over a component. It is stored when it is first asked for, and
the same one is given ever after. -/
def arrayOf (component : TypeHandle) : StateM (Store ω π) TypeHandle := fun s =>
  match s.array? component with
  | some t => (t, s)
  | none =>
      match s.decl? component with
      | some d =>
          if s.canHold component then
            (s.nextType, { s with types := s.types.push (s.arrayDecl component d) })
          else (.absent, s)
      | none => (.absent, s)

/-- A store as a type source. -/
def source : TypeSource (Store ω π) where
  catalog := catalog
  arrayOf := arrayOf

end Store

end BestFit
