import BestFit.Conversion

/-! Specificity: which of two parameter lists asks for more. -/
namespace BestFit.Catalog

variable (c : Catalog)

/-- Whether some place of `as` is strictly narrower than the same place of `bs`:
the conversion leads one way only. -/
def narrowsSomewhere (boxing : Bool) (as bs : List TypeHandle) : Bool :=
  (as.zip bs).any fun p => !c.converts boxing p.2 p.1

/-- Whether `as` is strictly more specific than `bs`: it converts to `bs` place by
place, and somewhere `bs` does not convert back. -/
def isNarrower (boxing : Bool) (as bs : List TypeHandle) : Bool :=
  c.convertsAll boxing as bs && c.narrowsSomewhere boxing as bs

/-- `lt` if the first list is more specific, `gt` if the second is, and `eq` for
lists that are tied or cannot be compared. -/
def rank (boxing : Bool) (as bs : List TypeHandle) : Ordering :=
  if c.isNarrower boxing as bs then .lt
  else if c.isNarrower boxing bs as then .gt
  else .eq

end BestFit.Catalog
