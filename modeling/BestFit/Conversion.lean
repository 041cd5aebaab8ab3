import BestFit.Catalog

/-! Conversion: when a value of one type may be passed where another is expected.
A type converts to itself; null converts to every declared reference type; a
primitive converts to those it widens to; a reference type converts along its
declared supertypes, and arrays follow their components. With boxing, a primitive
is first boxed on its way to a reference type, and a wrapper unboxed on its way to
a primitive. -/
namespace BestFit.Catalog

variable (c : Catalog)

/-! ## Reference types -/

/-- Whether at most `n` declared steps up from one of `ts` meet `target`. -/
def climbs (target : TypeHandle) : Nat → List TypeHandle → Bool
  | 0, ts => ts.contains target
  | n + 1, ts =>
      ts.contains target || (!ts.isEmpty && climbs target n (ts.flatMap c.parents).eraseDups)

/-- Whether `target` lies on or above `t`. A shortest way up meets no type twice,
so the number of declared types bounds its steps, circles or not. -/
def isAbove (target t : TypeHandle) : Bool := c.climbs target c.handles.length [t]

/-- What one level of a comparison of two reference types comes to. -/
inductive Comparison where
  /-- The level settles the comparison. -/
  | settled (answer : Bool)
  /-- Both are array types, and their components decide. -/
  | descend (a b : TypeHandle)
deriving DecidableEq, Repr

/-- Compares two reference types as far as their own declarations go. Both have to
be declared, and every declared type refers to the root class. An array type refers
to an array type with the same component; where the components differ and none is
primitive, they are compared in turn. -/
def compare (a b : TypeHandle) : Comparison :=
  match c.decl? a with
  | none => .settled false
  | some d =>
      if !c.contains b then .settled false
      else if b = .object then .settled true
      else match d.component? with
        | none => .settled (c.isAbove b a)
        | some ac =>
            match c.component? b with
            | none => .settled false
            | some bc =>
                if ac = bc then .settled true
                else if (Primitive.ofHandle? ac).isSome || (Primitive.ofHandle? bc).isSome then
                  .settled false
                else .descend ac bc

/-- Reference conversion, looking through at most `n` levels of array types. Where
both types nest without end and never meet, the comparison settles at no level: the
answer is then `none` for every `n`. -/
def refersTo : Nat → TypeHandle → TypeHandle → Option Bool
  | 0, _, _ => none
  | n + 1, a, b =>
      match c.compare a b with
      | .settled answer => some answer
      | .descend ac bc => refersTo n ac bc

/-- Looking through more levels keeps an answer that was already there. -/
theorem refersTo_mono {n m : Nat} (hnm : n ≤ m) {a b : TypeHandle} {r : Bool}
    (h : c.refersTo n a b = some r) : c.refersTo m a b = some r := by
  induction n generalizing a b m with
  | zero => simp [refersTo] at h
  | succ n ih =>
    obtain ⟨m, rfl⟩ : ∃ k, m = k + 1 := ⟨m - 1, by omega⟩
    simp only [refersTo] at h ⊢
    cases hc : c.compare a b with
    | settled answer => simpa [hc] using h
    | descend ac bc =>
      simp only [hc] at h ⊢
      exact ih (by omega) h

/-! ## All types -/

/-- The type that `a` stands for on its way to `b`: a primitive is boxed if `b` is
a reference type, a wrapper unboxed if `b` is primitive. `none` if that would be
needed and cannot be done. -/
def adapted (boxing : Bool) (a b : TypeHandle) : Option TypeHandle :=
  if boxing then
    match Primitive.ofHandle? a, Primitive.ofHandle? b with
    | some p, none => p.wrapper?
    | none, some _ => (Primitive.ofWrapper? a).map Primitive.handle
    | _, _ => some a
  else some a

/-- Conversion between two different types on the same side of boxing. -/
def widensOrRefers (levels : Nat) (a b : TypeHandle) : Option Bool :=
  match Primitive.ofHandle? a, Primitive.ofHandle? b with
  | some p, some q => some (p.widensTo q)
  | none, none => c.refersTo levels a b
  | _, _ => some false

/-- Conversion from `a` to `b`, looking through at most `levels` levels of array
types; `none` if that was not enough to tell. -/
def conversion? (levels : Nat) (boxing : Bool) (a b : TypeHandle) : Option Bool :=
  if !a.isPresent || !b.isPresent then some false
  else if a = .null then
    some (b != .null && (Primitive.ofHandle? b).isNone && c.contains b)
  else if a = b then some true
  else match adapted boxing a b with
    | none => some false
    | some a' => if a' = b then some true else c.widensOrRefers levels a' b

/-- The number of levels after which no further level can settle a comparison. -/
def levels : Nat := c.handles.length + 1

/-- Whether a value of type `a` may be passed where `b` is expected. A comparison that would go
on for ever, of arrays that nest without end, counts as a refusal. -/
def converts (boxing : Bool) (a b : TypeHandle) : Bool :=
  c.conversion? c.levels boxing a b == some true

/-- Conversion position by position, between lists of one length. -/
def convertsAll (boxing : Bool) (as bs : List TypeHandle) : Bool :=
  as.isEqv bs (c.converts boxing)

end BestFit.Catalog
