import BestFit.Applicability
import BestFit.Factory
import BestFit.Specificity

/-! Selection: which constructor of a type answers a request. An exposed constructor
whose parameters are the request wins outright. Otherwise the constructors that fit
and may be used compete, and the most specific one wins, the one declared first where
there are several. -/
namespace BestFit

/-- A constructor that fits a request, with the parameter list that it presents. -/
structure Candidate where
  ctor : Ctor
  formals : List TypeHandle
deriving DecidableEq, Repr

namespace Catalog

variable (c : Catalog)

/-- The exposed constructor whose parameters are exactly the request. If several have
those parameters, only the first is considered. -/
def exactCtor? (t : TypeHandle) (request : List TypeHandle) : Option Ctor :=
  ((c.ctorsOf t).find? (·.params == request)).filter c.exposes

/-- The constructors of a type that fit a request, in declaration order. -/
def candidates (boxing : Bool) (t : TypeHandle) (request : List TypeHandle) :
    List Candidate :=
  (c.ctorsOf t).filterMap fun k =>
    (c.fit? boxing k request).map fun f => ⟨k, c.formals k f request.length⟩

/-- The better of two candidates: the later one only if it is more specific. -/
def better (boxing : Bool) (best : Option Candidate) (k : Candidate) : Option Candidate :=
  match best with
  | none => some k
  | some b => if c.rank boxing k.formals b.formals = .lt then some k else some b

/-- The candidate left after going through all of them in order. -/
def mostSpecific? (boxing : Bool) (ks : List Candidate) : Option Candidate :=
  ks.foldl (c.better boxing) none

/-- A candidate takes the place of the best so far, or leaves it as it was. -/
theorem better_eq (boxing : Bool) (best : Option Candidate) (k : Candidate) :
    c.better boxing best k = some k ∨ c.better boxing best k = best ∧ best.isSome := by
  cases best with
  | none => exact .inl rfl
  | some b =>
    by_cases h : c.rank boxing k.formals b.formals = .lt
    · exact .inl (by simp [better, h])
    · exact .inr (by simp [better, h])

/-- What is left is one of the candidates, or what there was at the start. -/
theorem mem_of_foldl_better {boxing : Bool} {ks : List Candidate} {best : Option Candidate}
    {k : Candidate} (h : ks.foldl (c.better boxing) best = some k) :
    best = some k ∨ k ∈ ks := by
  induction ks generalizing best with
  | nil => exact .inl h
  | cons k' ks ih =>
    rcases ih h with h | h
    · rcases c.better_eq boxing best k' with hb | ⟨hb, -⟩
      · rw [hb] at h
        exact .inr (by simp_all)
      · rw [hb] at h
        exact .inl h
    · exact .inr (List.mem_cons_of_mem _ h)

/-- The choice falls on one of the candidates. -/
theorem mem_of_mostSpecific? {boxing : Bool} {ks : List Candidate} {k : Candidate}
    (h : c.mostSpecific? boxing ks = some k) : k ∈ ks := by
  simpa using c.mem_of_foldl_better h

end Catalog

namespace Factory

variable {σ π : Type} (F : Factory σ π)

/-- The catalog, after checking that it has the type. -/
def catalogWith (t : TypeHandle) : Failable σ FactoryError Catalog := do
  let c ← F.source.view
  if !t.isPresent then throw .noType
  else if !c.contains t then throw (.unknownType t)
  else return c

/-- Whether a constructor may be used: it is exposed, or the policy allows to unlock
it and that succeeds. -/
def usable (c : Catalog) (k : Ctor) : StateM σ Bool :=
  if c.exposes k then return true
  else if F.policy.unlocking then F.unlock k
  else return false

/-- The candidates that may be used, tried from first to last. -/
def usableAmong (c : Catalog) : List Candidate → StateM σ (List Candidate)
  | [] => return []
  | k :: ks => do
      let ok ← F.usable c k.ctor
      let rest ← usableAmong c ks
      return if ok then k :: rest else rest

/-- The exposed constructor of a type whose parameters are exactly the request. -/
def exactCtor? (t : TypeHandle) (request : List TypeHandle) :
    Failable σ FactoryError (Option Ctor) := do
  let c ← F.catalogWith t
  return c.exactCtor? t request

/-- The most specific constructor of a type that fits the request and may be used.
An exact one is unlocked, too, where the policy allows it, whatever comes of it. -/
def bestCtor? (t : TypeHandle) (request : List TypeHandle) :
    Failable σ FactoryError (Option Ctor) := do
  let c ← F.catalogWith t
  match c.exactCtor? t request with
  | some k =>
      if F.policy.unlocking then discard (F.unlock k : Failable σ FactoryError Bool)
      return some k
  | none =>
      let ks ← F.usableAmong c (c.candidates F.policy.boxing t request)
      return (c.mostSpecific? F.policy.boxing ks).map Candidate.ctor

end Factory

end BestFit
