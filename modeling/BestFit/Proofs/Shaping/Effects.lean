import BestFit.Shaping
import Mathlib.Order.Defs.Unbundled

/-!
# What computations do to the state

A computation keeps to a relation if it ends in a state that stands in that relation to the one it
started from, whether it succeeds or fails. If the relation is reflexive and transitive, sequences
keep to it as their parts do; so shaping does nothing to the state that asking for array types does
not do.
-/
namespace BestFit

namespace Failable

variable {σ ε α β : Type} {R : σ → σ → Prop}

/-- Wherever the computation starts, it ends in a related state. -/
def Keeps (R : σ → σ → Prop) (x : Failable σ ε α) : Prop := ∀ s, R s (x.runFrom s).2

namespace Keeps

theorem lift {x : StateM σ α} (hx : ∀ s, R s (x.run s).2) :
    Keeps R (liftM x : Failable σ ε α) := hx

section Refl

variable [Std.Refl R]

theorem pure (a : α) : Keeps R (pure a : Failable σ ε α) := fun s => refl s

theorem throw (e : ε) : Keeps R (throw e : Failable σ ε α) := fun s => refl s

theorem view (S : TypeSource σ) : Keeps R (liftM S.view : Failable σ ε Catalog) := fun s => refl s

end Refl

theorem bind [IsTrans σ R] {x : Failable σ ε α} {f : α → Failable σ ε β} (hx : Keeps R x)
    (hf : ∀ a, Keeps R (f a)) : Keeps R (x >>= f) := by
  intro s
  have hs := hx s
  rw [runFrom_bind]
  cases hr : x.runFrom s with
  | mk r s₁ =>
    rw [hr] at hs
    cases r with
    | error e => exact hs
    | ok a => exact IsTrans.trans _ _ _ hs (hf a s₁)

end Keeps

end Failable

namespace TypeSource

open Failable (Keeps)

variable {σ π : Type} (S : TypeSource σ) {R : σ → σ → Prop}

/-- The types of an argument list are asked for one after the other. -/
theorem run_typesOf_cons (a : Datum π) (args : List (Datum π)) (s : σ) :
    (S.typesOf (a :: args)).run s =
      (((S.typeOf a).run s).1 :: ((S.typesOf args).run ((S.typeOf a).run s).2).1,
        ((S.typesOf args).run ((S.typeOf a).run s).2).2) := rfl

theorem acceptAll_cons (index : Nat) (t : TypeHandle) (ts : List TypeHandle) (a : Datum π)
    (as : List (Datum π)) :
    S.acceptAll index (t :: ts) (a :: as) = (do
      let b ← S.accept index t a
      let bs ← S.acceptAll (index + 1) ts as
      return b :: bs) := rfl

variable [Std.Refl R] (hS : ∀ x s, R s ((S.arrayOf x).run s).2)
include hS

theorem keeps_typeOf (a : Datum π) (s : σ) : R s ((S.typeOf a).run s).2 := by
  cases a with
  | array x items => exact hS x s
  | _ => exact refl s

theorem keeps_fillsLast (last : TypeHandle) (a : Option (Datum π)) (s : σ) :
    R s ((S.fillsLast last a).run s).2 := by
  rcases a with _ | a
  · exact refl s
  · cases a with
    | array x items => exact hS x s
    | _ => exact refl s

variable [IsTrans σ R]

theorem keeps_typesOf (args : List (Datum π)) (s : σ) : R s ((S.typesOf args).run s).2 := by
  induction args generalizing s with
  | nil => exact refl s
  | cons a args ih => exact IsTrans.trans _ _ _ (S.keeps_typeOf hS a s) (ih _)

theorem keeps_accept (index : Nat) (t : TypeHandle) (a : Datum π) :
    Keeps R (S.accept index t a) := by
  have hfound : Keeps R (liftM (S.typeOf a) : Failable σ ArgumentError TypeHandle) :=
    .lift (S.keeps_typeOf hS a)
  unfold accept
  split
  · split
    · exact (Keeps.view S).bind fun c => .throw _
    · split
      · exact .pure _
      · exact hfound.bind fun found => (Keeps.view S).bind fun c => .throw _
  · split
    · exact .pure a
    · refine hfound.bind fun found => (Keeps.view S).bind fun c => ?_
      split
      · exact .pure a
      · exact .throw _

theorem keeps_acceptAll (index : Nat) (ts : List TypeHandle) (as : List (Datum π)) :
    Keeps R (S.acceptAll index ts as) := by
  induction ts generalizing index as with
  | nil => exact .pure []
  | cons t ts ih =>
    cases as with
    | nil => exact .pure []
    | cons a as =>
      rw [acceptAll_cons]
      exact (S.keeps_accept hS index t a).bind fun b => (ih (index + 1) as).bind fun bs => .pure _

theorem keeps_conform (k : Ctor) (args : List (Datum π)) : Keeps R (S.conform k args) := by
  unfold conform
  split
  · exact S.keeps_acceptAll hS 0 k.params args
  · exact .throw _

theorem keeps_gatherFrom (fixed : Nat) (component : TypeHandle) (args : List (Datum π)) :
    Keeps R (S.gatherFrom fixed component args) := by
  unfold gatherFrom
  split
  · exact .throw _
  · exact (S.keeps_acceptAll hS _ _ _).bind fun items => .pure _

theorem keeps_gather (k : Ctor) (args : List (Datum π)) : Keeps R (S.gather k args) := by
  unfold gather
  split
  · refine (Keeps.view S).bind fun c => ?_
    split
    · exact .throw _
    · next component _ =>
      have hrest : ∀ filled : Bool, Keeps R (if filled then pure args
          else S.gatherFrom k.fixedParams.length component args) := by
        intro filled
        split
        · exact .pure args
        · exact S.keeps_gatherFrom hS _ _ _
      split
      · exact (Keeps.lift (S.keeps_fillsLast hS _ _)).bind hrest
      · exact (Keeps.pure false).bind hrest
  · exact .pure args

end TypeSource

end BestFit
