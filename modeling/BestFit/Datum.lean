import BestFit.Binary
import BestFit.Primitive

/-! The data passed to constructors and made by them. `π` is the type of what an
instance holds; the library never looks into it. -/
namespace BestFit

/-- Which instance one is dealing with: who made it, and as which of theirs. -/
structure Identity where
  maker : Nat
  serial : Nat
deriving DecidableEq, Repr

/-- An instance of a class. Copies share the identity. -/
structure Instance (π : Type) where
  type : TypeHandle
  identity : Identity
  payload : π

namespace Instance

variable {π : Type}

/-- Whether two are the same instance, not merely alike. -/
def isSame (a b : Instance π) : Bool := a.identity == b.identity

/-- The text that stands for an instance; what it holds stays out of sight. -/
def describe (a : Instance π) : String :=
  "Object \x7b ty: " ++ a.type.describe ++ ", .. \x7d"

end Instance

/-- A datum. An array carries its component type, so an empty one has a type too;
nothing makes its items conform to it. -/
inductive Datum (π : Type) where
  | null
  | boolean (b : Bool)
  | byte (n : Int8)
  | char (c : Char)
  | short (n : Int16)
  | int (n : Int32)
  | long (n : Int64)
  | float (x : Binary32)
  | double (x : Binary64)
  | string (s : String)
  | array (component : TypeHandle) (items : List (Datum π))
  | object (a : Instance π)

namespace Datum

variable {π : Type}

/-- Whether the datum is null. -/
def isNull : Datum π → Bool
  | null => true
  | _ => false

/-- The primitive type of an unboxed datum. -/
def primitive? : Datum π → Option Primitive
  | boolean _ => some .boolean
  | byte _ => some .byte
  | char _ => some .char
  | short _ => some .short
  | int _ => some .int
  | long _ => some .long
  | float _ => some .float
  | double _ => some .double
  | null | string _ | array .. | object _ => none

/-! ## Parts -/

/-- The truth value, for a boolean. -/
def boolean? : Datum π → Option Bool
  | boolean b => some b
  | _ => none

/-- The number, for an int. -/
def int? : Datum π → Option Int32
  | int n => some n
  | _ => none

/-- The number, for a long. -/
def long? : Datum π → Option Int64
  | long n => some n
  | _ => none

/-- The number, for a double. -/
def double? : Datum π → Option Binary64
  | double x => some x
  | _ => none

/-- The text, for a string. -/
def string? : Datum π → Option String
  | string s => some s
  | _ => none

/-- The component type and the items, for an array. -/
def array? : Datum π → Option (TypeHandle × List (Datum π))
  | array component items => some (component, items)
  | _ => none

/-- The instance, for an object. -/
def object? : Datum π → Option (Instance π)
  | object a => some a
  | _ => none

/-! ## Equality -/

mutual
/-- Equality as programs see it: floating point compares as numbers, arrays compare
by component and items, and an instance equals nothing but itself. -/
def equals : Datum π → Datum π → Bool
  | null, null => true
  | boolean a, boolean b => a == b
  | byte a, byte b => a == b
  | char a, char b => a == b
  | short a, short b => a == b
  | int a, int b => a == b
  | long a, long b => a == b
  | float a, float b => a.sameNumber b
  | double a, double b => a.sameNumber b
  | string a, string b => a == b
  | array c as, array d bs => c == d && equalsAll as bs
  | object a, object b => a.type == b.type && a.isSame b
  | _, _ => false

/-- Equality of lists, item by item. -/
def equalsAll : List (Datum π) → List (Datum π) → Bool
  | [], [] => true
  | a :: as, b :: bs => equals a b && equalsAll as bs
  | _, _ => false
end

end Datum

end BestFit
