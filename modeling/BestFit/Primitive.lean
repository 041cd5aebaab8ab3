import BestFit.Handle

/-! The primitive types: which handle names each, which class boxes its values,
and which primitives its values widen to. All three are fixed by the handle
alone, whatever a catalog says about it. -/
namespace BestFit

/-- The eight primitives that have values, and `void`, which has none. -/
inductive Primitive where
  | boolean | byte | char | short | int | long | float | double | void
deriving DecidableEq, Repr

namespace Primitive

/-- Every primitive, in the order in which they are listed to users. -/
def all : List Primitive :=
  [boolean, byte, char, short, int, long, float, double, void]

/-- The name of the type. -/
def name : Primitive → String
  | boolean => "boolean"
  | byte => "byte"
  | char => "char"
  | short => "short"
  | int => "int"
  | long => "long"
  | float => "float"
  | double => "double"
  | void => "void"

/-- The handle of the type. -/
def handle : Primitive → TypeHandle
  | boolean => .boolean
  | byte => .byte
  | char => .char
  | short => .short
  | int => .int
  | long => .long
  | float => .float
  | double => .double
  | void => .void

/-- The class that boxes the values of a primitive; `void` has no values. -/
def wrapper? : Primitive → Option TypeHandle
  | boolean => some .boxedBoolean
  | byte => some .boxedByte
  | char => some .boxedChar
  | short => some .boxedShort
  | int => some .boxedInt
  | long => some .boxedLong
  | float => some .boxedFloat
  | double => some .boxedDouble
  | void => none

/-- The primitive that a handle names. -/
def ofHandle? (t : TypeHandle) : Option Primitive :=
  all.find? (·.handle == t)

/-- The primitive whose values a class boxes. -/
def ofWrapper? (t : TypeHandle) : Option Primitive :=
  all.find? (·.wrapper? == some t)

/-- The primitives that a value widens to, nearest first. Staying the same is
not a widening. -/
def widenings : Primitive → List Primitive
  | byte => [short, int, long, float, double]
  | short | char => [int, long, float, double]
  | int => [long, float, double]
  | long => [float, double]
  | float => [double]
  | boolean | double | void => []

/-- Whether a value may be passed where a wider primitive is expected. -/
def widensTo (source target : Primitive) : Bool := source.widenings.contains target

@[simp] theorem ofHandle?_handle (p : Primitive) : ofHandle? p.handle = some p := by
  cases p <;> decide

theorem eq_handle_of_ofHandle? {t : TypeHandle} {p : Primitive}
    (h : ofHandle? t = some p) : t = p.handle := by
  have hp := List.find?_some h
  exact (beq_iff_eq.mp hp).symm

theorem ofWrapper?_wrapper {p : Primitive} {t : TypeHandle}
    (h : p.wrapper? = some t) : ofWrapper? t = some p := by
  cases p <;> cases h <;> decide

/-- Widening never leads back. -/
theorem widensTo_asymm {a b : Primitive} (h : a.widensTo b = true) :
    b.widensTo a = false := by
  cases a <;> cases b <;> revert h <;> decide

theorem widensTo_trans {a b c : Primitive} (h : a.widensTo b = true)
    (h' : b.widensTo c = true) : a.widensTo c = true := by
  cases a <;> cases b <;> revert h <;> cases c <;> revert h' <;> decide

end Primitive

/-- Whether `wrapper` is the class that boxes the primitive type `boxed`. -/
def TypeHandle.isWrapperOf (wrapper boxed : TypeHandle) : Bool :=
  (Primitive.ofHandle? boxed).bind Primitive.wrapper? == some wrapper

end BestFit
