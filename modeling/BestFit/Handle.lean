/-! Handles name types and constructors. A handle is a number and nothing more:
what it stands for is decided by the catalog it is looked up in. The low type
handles are reserved for the built-in types, so they mean the same everywhere. -/
namespace BestFit

/-- Names a type. -/
structure TypeHandle where
  index : Nat
deriving DecidableEq, Repr, Inhabited, Hashable

/-- Names a declared constructor. -/
structure CtorHandle where
  index : Nat
deriving DecidableEq, Repr, Inhabited, Hashable

namespace TypeHandle

/-- The handle that names no type. -/
def absent : TypeHandle := ⟨0⟩

/-- The type of the null value. It converts to every reference type. -/
def null : TypeHandle := ⟨1⟩

/-! The primitives -/

def void : TypeHandle := ⟨2⟩
def boolean : TypeHandle := ⟨3⟩
def byte : TypeHandle := ⟨4⟩
def char : TypeHandle := ⟨5⟩
def short : TypeHandle := ⟨6⟩
def int : TypeHandle := ⟨7⟩
def long : TypeHandle := ⟨8⟩
def float : TypeHandle := ⟨9⟩
def double : TypeHandle := ⟨10⟩

/-! Classes -/

/-- The class above every other class. -/
def object : TypeHandle := ⟨11⟩

/-- The abstract class above the numeric wrappers. -/
def number : TypeHandle := ⟨12⟩

/-! The wrappers of the primitives, and text -/

def boxedBoolean : TypeHandle := ⟨13⟩
def boxedByte : TypeHandle := ⟨14⟩
def boxedChar : TypeHandle := ⟨15⟩
def boxedShort : TypeHandle := ⟨16⟩
def boxedInt : TypeHandle := ⟨17⟩
def boxedLong : TypeHandle := ⟨18⟩
def boxedFloat : TypeHandle := ⟨19⟩
def boxedDouble : TypeHandle := ⟨20⟩
def string : TypeHandle := ⟨21⟩

/-- The least index that a store gives to a type of its own. -/
def firstDeclared : Nat := 100

/-- Whether the handle can name a type at all. -/
def isPresent (t : TypeHandle) : Bool := t != absent

/-- Whether the handle lies in the range reserved for built-in types. -/
def isBuiltin (t : TypeHandle) : Bool := t.isPresent && t.index < firstDeclared

/-- The text that stands for a handle in messages. -/
def describe (t : TypeHandle) : String := s!"TypeId({t.index})"

end TypeHandle

namespace CtorHandle

/-- The least index that a store gives to a constructor. -/
def firstDeclared : Nat := 1

/-- Whether the handle can name a constructor at all. -/
def isPresent (k : CtorHandle) : Bool := firstDeclared ≤ k.index

end CtorHandle

end BestFit
