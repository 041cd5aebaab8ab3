import BestFit.Proofs.Shaping.Effects
import BestFit.Proofs.Store.Reachable

/-!
# Computations on a store

A computation is steady if all that it does to a well-formed store are operations on true
descriptions. What such operations keep, a steady computation keeps, whether it succeeds or
fails: it keeps to `Evolves`.
-/
namespace BestFit

/-- A sequence succeeds exactly if both parts do, one after the other. -/
theorem Failable.runFrom_bind_eq_ok {σ ε α β : Type} {x : Failable σ ε α}
    {f : α → Failable σ ε β} {s s' : σ} {b : β} :
    (x >>= f).runFrom s = (.ok b, s') ↔
      ∃ a s₁, x.runFrom s = (.ok a, s₁) ∧ (f a).runFrom s₁ = (.ok b, s') := by
  rw [Failable.runFrom_bind]
  cases hx : x.runFrom s with
  | mk r s₁ =>
    cases r with
    | error e => simp
    | ok a => simp

@[simp] theorem TypeSource.run_view {σ : Type} (S : TypeSource σ) (s : σ) :
    S.view.run s = (S.catalog s, s) := rfl

namespace Store

variable {ω π ε α β : Type}

@[simp] theorem source_catalog (s : Store ω π) :
    (source : TypeSource (Store ω π)).catalog s = s.catalog := rfl

/-- Operations on true descriptions lead from a store to another, if the first is well-formed. -/
def Evolves (s s' : Store ω π) : Prop := s.WellFormed → s.OwnSteps s'

instance : Std.Refl (Evolves : Store ω π → Store ω π → Prop) := ⟨fun s _ => .refl s⟩

instance : IsTrans (Store ω π) Evolves :=
  ⟨fun _ _ _ h h' hs => (h hs).trans (h' ((h hs).wellFormed hs))⟩

theorem evolves_arrayOf (x : TypeHandle) (s : Store ω π) :
    s.Evolves ((source.arrayOf x).run s).2 := fun _ => .arrayOf s x

/-- A computation that does nothing to well-formed stores but operations on true
descriptions. -/
def Steady (x : Failable (Store ω π) ε α) : Prop :=
  ∀ s : Store ω π, s.WellFormed → s.OwnSteps (x.runFrom s).2

theorem steady_iff_keeps {x : Failable (Store ω π) ε α} : Steady x ↔ Failable.Keeps Evolves x :=
  Iff.rfl

namespace Steady

theorem bind {x : Failable (Store ω π) ε α} {f : α → Failable (Store ω π) ε β} (hx : Steady x)
    (hf : ∀ a, Steady (f a)) : Steady (x >>= f) :=
  steady_iff_keeps.mpr ((steady_iff_keeps.mp hx).bind fun a => steady_iff_keeps.mp (hf a))

/-- Where a steady computation ended, told by its run. -/
theorem steps {x : Failable (Store ω π) ε α} (hx : Steady x) {s s' : Store ω π} (hs : s.WellFormed)
    {r : Except ε α} (h : x.runFrom s = (r, s')) : s.OwnSteps s' := by
  have hsteps := hx s hs
  rwa [h] at hsteps

end Steady

end Store

end BestFit
