import BestFit.Catalog

/-! Exposure: a type can be seen from outside if it and every type around it are
public. -/
namespace BestFit.Catalog

variable (c : Catalog)

/-- The longest chain of enclosing types that counts as well-formed. -/
def maxNesting : Nat := 64

/-- Whether the chain of enclosing types from `t` outward is public throughout and
ends within `n` types. -/
def exposesWithin : Nat → TypeHandle → Bool
  | 0, _ => false
  | n + 1, t =>
      c.isPublic t &&
        match c.enclosing? t with
        | none => true
        | some outer => exposesWithin n outer

/-- Whether a type and all types around it are public. A chain of more than
`maxNesting` types, and so every circle, counts as hidden. -/
def exposesType (t : TypeHandle) : Bool := c.exposesWithin maxNesting t

/-- Whether a constructor is public and its owner exposed. -/
def exposes (k : Ctor) : Bool := k.isPublic && c.exposesType k.owner

end BestFit.Catalog
