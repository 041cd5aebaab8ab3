import BestFit.Factory

/-! A workspace holds several collections of types side by side: stores, which grow,
and tables, which do not. They are told apart by their place, and one of them never
changes by what is done to another: the bodies of each store have a world to themselves. -/
namespace BestFit

/-- A collection of types in a workspace. -/
inductive Member (ω π : Type) where
  | store (s : Store ω π)
  | table (tbl : TypeTable)

namespace Member

variable {ω π : Type}

/-- The store, if it is one. -/
def store? : Member ω π → Option (Store ω π)
  | store s => some s
  | table _ => none

/-- What the member knows at present. -/
def catalog : Member ω π → Catalog
  | store s => s.catalog
  | table tbl => tbl.catalog

/-- The array type over a component, with the member as it is after asking. -/
def arrayOf (component : TypeHandle) : StateM (Member ω π) TypeHandle
  | store s => let (t, s) := (Store.arrayOf component).run s; (t, store s)
  | table tbl => (tbl.arrayOf component, table tbl)

end Member

/-- Collections of types, told apart by place. -/
structure Workspace (ω π : Type) where
  members : List (Member ω π) := []

/-- What decides whether a constructor is unlocked. -/
inductive Unlocker where
  /-- The store at a place keeps the record. -/
  | store (place : Nat)
  /-- Every attempt fails. -/
  | denyAll
  /-- Every attempt succeeds, and nothing is recorded. -/
  | grantAll
deriving DecidableEq, Repr

namespace Workspace

variable {ω π : Type} (w : Workspace ω π)

/-- The member at a place. -/
def member? (place : Nat) : Option (Member ω π) := w.members[place]?

/-- The store at a place, if there is one. -/
def store? (place : Nat) : Option (Store ω π) := (w.member? place).bind Member.store?

/-- What the member at a place knows; where there is none, nothing. -/
def catalog (place : Nat) : Catalog :=
  match w.member? place with
  | some m => m.catalog
  | none => .empty

/-- Puts a member in the place of another. -/
def replace (place : Nat) (m : Member ω π) : Workspace ω π :=
  { w with members := w.members.set place m }

/-- The stores among the members. -/
def stores : List (Store ω π) := w.members.filterMap Member.store?

/-- Adds a store whose bodies find the given world. Stores are numbered from one in the
order in which they are added, so no two have the same number. -/
def addStore (world : ω) : Workspace ω π :=
  { w with members := w.members ++ [.store { serial := w.stores.length + 1, world }] }

/-- Adds a table. -/
def addTable (tbl : TypeTable) : Workspace ω π :=
  { w with members := w.members ++ [.table tbl] }

/-! ## Working on one member -/

/-- Runs a computation on the store at a place, with a result for the case that there
is none. -/
def onStore {α : Type} (place : Nat) (otherwise : α) (x : StateM (Store ω π) α) :
    StateM (Workspace ω π) α := fun w =>
  match w.store? place with
  | some s => let (a, s) := x.run s; (a, w.replace place (.store s))
  | none => (otherwise, w)

/-- The member at a place as a type source. -/
def source (place : Nat) : TypeSource (Workspace ω π) where
  catalog w := w.catalog place
  arrayOf component := fun w =>
    match w.member? place with
    | some m => let (t, m) := (m.arrayOf component); (t, w.replace place m)
    | none => (.absent, w)

/-- Tries to unlock a constructor. -/
def unlock : Unlocker → Ctor → StateM (Workspace ω π) Bool
  | .store place, k => onStore place false (Store.unlock k)
  | .denyAll, _ => return false
  | .grantAll, _ => return true

/-- Runs a constructor in the store at a place. -/
def instantiate (place : Nat) (k : Ctor) (args : List (Datum π)) :
    Failable (Workspace ω π) TargetFailure (Instance π) :=
  ExceptT.mk <| onStore place (.error (.inaccessible ((Catalog.empty).nameOf k.owner)))
    (Store.instantiate k args).run

/-- The factory with the given parts. -/
def factory (types : Nat) (makes : Nat) (unlocks : Unlocker) (policy : Policy) :
    Factory (Workspace ω π) π where
  source := source types
  unlock := unlock unlocks
  instantiate := instantiate makes
  policy := policy

end Workspace

end BestFit
