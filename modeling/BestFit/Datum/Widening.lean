import BestFit.Datum

/-! Widening of data: an unboxed datum becomes one of a wider primitive type. -/
namespace BestFit.Datum

variable {π : Type}

/-- The whole number that an integral datum or a character stands for. -/
def integral? : Datum π → Option Int
  | byte n => some n.toInt
  | char c => some c.toNat
  | short n => some n.toInt
  | int n => some n.toInt
  | long n => some n.toInt
  | _ => none

/-- The datum of a numeric primitive type that stands for a whole number, rounded
to the nearest where the type is a floating-point one. -/
def ofIntegral? (n : Int) : Primitive → Option (Datum π)
  | .short => some (short (.ofInt n))
  | .int => some (int (.ofInt n))
  | .long => some (long (.ofInt n))
  | .float => some (float (.ofInt n))
  | .double => some (double (.ofInt n))
  | .boolean | .byte | .char | .void => none

/-- A datum as one of the `target` type: unchanged if it has that type, converted
if its type widens to it. There is no narrowing, and a reference never becomes
primitive. -/
def widenTo (a : Datum π) (target : Primitive) : Option (Datum π) :=
  match a.primitive? with
  | none => none
  | some source =>
      if source = target then some a
      else if source.widensTo target then
        match a with
        | float x => some (double x.widen)
        | _ => a.integral?.bind (ofIntegral? · target)
      else none

/-- A datum of the wanted type stays as it is. -/
@[simp] theorem widenTo_of_primitive? {a : Datum π} {p : Primitive}
    (h : a.primitive? = some p) : a.widenTo p = some a := by
  simp [widenTo, h]

/-- What widening yields has the wanted type. -/
theorem primitive?_of_widenTo {a b : Datum π} {p : Primitive}
    (h : a.widenTo p = some b) : b.primitive? = some p := by
  cases a <;> cases p <;>
    simp_all [widenTo, primitive?, integral?, ofIntegral?, Primitive.widensTo,
      Primitive.widenings] <;>
    subst h <;> rfl

/-- A datum widens exactly to its own type and those above it. -/
theorem widenTo_isSome_iff {a : Datum π} {target : Primitive} :
    (a.widenTo target).isSome ↔
      ∃ p, a.primitive? = some p ∧ (p = target ∨ p.widensTo target = true) := by
  cases a <;> cases target <;>
    simp [widenTo, primitive?, integral?, ofIntegral?, Primitive.widensTo,
      Primitive.widenings]

end BestFit.Datum
