/-! The choices that a caller has in how constructors are found. -/
namespace BestFit

/-- How requests are treated. -/
structure Policy where
  /-- Let requested types be boxed and unboxed on the way to parameters. -/
  boxing : Bool := true
  /-- Try to unlock constructors that are not exposed. -/
  unlocking : Bool := true
deriving DecidableEq, Repr

/-- A policy as a JSON text. -/
def Policy.render (p : Policy) : String :=
  "\x7b\"autoboxing\":" ++ toString p.boxing ++ ",\"escalation\":" ++ toString p.unlocking
    ++ "\x7d"

end BestFit
