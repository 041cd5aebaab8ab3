import BestFit.Proofs.Shaping.Trailing

/-!
# Shaping twice

Shaping has nothing left to do on what it returned. The lists that it leaves as they are can be
told: nothing is to be gathered in them, and they conform (`shape_eq_self_iff`). What was gathered
is such a list before acceptance (`needsNoGathering_of_gather`), and after it as well, since
acceptance leaves the last datum of a variadic constructor alone
(`NeedsNoGathering.of_acceptsAll`). Main statement: `Reachable.shape_idempotent`.
-/
namespace BestFit.Store

variable {ω π : Type} {s s' : Store ω π} {k : Ctor} {last x : TypeHandle} {args g l : List (Datum π)}

/-- What a computation makes of arguments, it returns as it is from then on, and leaves the store
as it is. -/
def Reproduces (f : List (Datum π) → Failable (Store ω π) ArgumentError (List (Datum π)))
    (s : Store ω π) (args : List (Datum π)) : Prop :=
  ∀ l s₁, (f args).runFrom s = (.ok l, s₁) →
    ∀ s₂, s₁.Steps s₂ → (f l).runFrom s₂ = (.ok l, s₂)

/-- Acceptance leaves the datum at the collecting parameter as it is. -/
theorem Filled.of_acceptsAll (h : Filled k x g) (hl : k.lastParam? = some last)
    (hlast : Primitive.ofHandle? last = none) (hall : s.AcceptsAll k.params g l) :
    Filled k x l := by
  refine ⟨hall.length_eq.trans h.1, ?_⟩
  obtain ⟨a, front, rfl, ha, hfront⟩ := h.exists_concat hl
  rw [← Ctor.fixedParams_append hl] at hall
  obtain ⟨b, hb, haccepts⟩ := hall.getLast? hfront.symm
  rw [hb, haccepts.same hlast]
  exact ha

namespace NeedsNoGathering

theorem mono (h : s.NeedsNoGathering k l) (hgrows : s.Grows s') : s'.NeedsNoGathering k l := by
  intro hv
  obtain ⟨last, x, hl, hx, hfill⟩ := h hv
  exact ⟨last, x, hl, hgrows.component? hx, hfill⟩

theorem of_acceptsAll (h : s.NeedsNoGathering k g) (hall : s'.AcceptsAll k.params g l) :
    s.NeedsNoGathering k l := by
  intro hv
  obtain ⟨last, x, hl, hx, hfill⟩ := h hv
  exact ⟨last, x, hl, hx, hfill.of_acceptsAll hl (ofHandle?_of_component? hx) hall⟩

end NeedsNoGathering

/-- What was gathered needs no gathering. -/
theorem needsNoGathering_of_gather (hs : s.WellFormed) (hk : s.Describes k)
    (h : (source.gather k args).runFrom s = (.ok l, s')) : s'.NeedsNoGathering k l := by
  intro hv
  obtain ⟨last, x, hl, hx⟩ := hs.exists_component hk hv
  have hgathered := gathered hs hl hx hv args
  rw [h] at hgathered
  have hgrows := ((steady_gather k args).steps hs h).grows
  exact ⟨last, x, hl, hgrows.component? hx, hgathered.filled hl⟩

/-! ## What shaping leaves as it is -/

theorem gather_eq_self_iff (hs : s.WellFormed) (hk : s.Describes k) :
    (source.gather k l).runFrom s = (.ok l, s) ↔ s.NeedsNoGathering k l :=
  ⟨needsNoGathering_of_gather hs hk, NeedsNoGathering.gather hs⟩

theorem conform_eq_self_iff (hs : s.WellFormed) :
    (source.conform k l).runFrom s = (.ok l, s) ↔ List.Forall₂ s.Conforms k.params l :=
  ⟨fun h => (acceptsAll_of_conform hs h).2.conforms, conform_of_conforms⟩

/-- Shaping leads to lists that it leaves as they are: the last datum is the one that was gathered,
so there is nothing to gather again. -/
theorem shaped_of_shape (hs : s.WellFormed) (hk : s.Describes k)
    (h : (source.shape args k).runFrom s = (.ok l, s')) :
    s'.NeedsNoGathering k l ∧ List.Forall₂ s'.Conforms k.params l := by
  obtain ⟨g, s₁, hgather, hconform⟩ := Failable.runFrom_bind_eq_ok.mp h
  have hs₁ := ((steady_gather k args).steps hs hgather).wellFormed hs
  obtain ⟨-, hall⟩ := acceptsAll_of_conform hs₁ hconform
  have hgathered := (needsNoGathering_of_gather hs hk hgather).of_acceptsAll hall
  exact ⟨hgathered.mono ((steady_conform k g).steps hs₁ hconform).grows, hall.conforms⟩

theorem shape_eq_self_iff (hs : s.WellFormed) (hk : s.Describes k) :
    (source.shape l k).runFrom s = (.ok l, s) ↔
      s.NeedsNoGathering k l ∧ List.Forall₂ s.Conforms k.params l := by
  constructor
  · exact shaped_of_shape hs hk
  · rintro ⟨hgathered, hconform⟩
    exact Failable.runFrom_bind_eq_ok.mpr ⟨l, s, hgathered.gather hs, conform_of_conforms hconform⟩

theorem forall₂_conforms_mono (hs : s.WellFormed) (hsteps : s.Steps s')
    (h : List.Forall₂ s.Conforms k.params l) : List.Forall₂ s'.Conforms k.params l :=
  h.imp fun _ _ ha => ha.mono hs hsteps

/-! ## Twice -/

/-- Gathering, acceptance and both one after the other return as it is what they returned, then or
later, and do nothing to the store. What they leave as it is are the lists in which nothing is to be
gathered, those that conform, and those of both kinds. -/
theorem Reachable.shape_idempotent (hs : s.Reachable) (hk : s.Describes k)
    (args : List (Datum π)) :
    (Reproduces (source.gather k) s args ∧ Reproduces (source.conform k) s args ∧
      Reproduces (source.shape · k) s args) ∧
    ∀ l : List (Datum π),
      ((source.gather k l).runFrom s = (.ok l, s) ↔ s.NeedsNoGathering k l) ∧
      ((source.conform k l).runFrom s = (.ok l, s) ↔ List.Forall₂ s.Conforms k.params l) ∧
      ((source.shape l k).runFrom s = (.ok l, s) ↔
        s.NeedsNoGathering k l ∧ List.Forall₂ s.Conforms k.params l) := by
  have hwf := hs.wellFormed
  refine ⟨⟨?_, ?_, ?_⟩, fun l => ⟨gather_eq_self_iff hwf hk, conform_eq_self_iff hwf,
    shape_eq_self_iff hwf hk⟩⟩
  · intro l s₁ h s₂ hlater
    have hsteps := ((steady_gather k args).steps hwf h).steps.trans hlater
    exact ((needsNoGathering_of_gather hwf hk h).mono hlater.grows).gather (hsteps.wellFormed hwf)
  · intro l s₁ h s₂ hlater
    have hwf₁ := ((steady_conform k args).steps hwf h).wellFormed hwf
    obtain ⟨-, hall⟩ := acceptsAll_of_conform hwf h
    exact conform_of_conforms (forall₂_conforms_mono hwf₁ hlater hall.conforms)
  · intro l s₁ h s₂ hlater
    have hsteps := (steady_shape args k).steps hwf h
    have hwf₁ := hsteps.wellFormed hwf
    obtain ⟨hgathered, hconform⟩ := shaped_of_shape hwf hk h
    have hk₂ : s₂.Describes k := hlater.grows.ctor? (hsteps.grows.ctor? hk)
    exact (shape_eq_self_iff (hlater.wellFormed hwf₁) hk₂).mpr
      ⟨hgathered.mono hlater.grows, forall₂_conforms_mono hwf₁ hlater hconform⟩

/-- Readings of a meter are packed and widened once. -/
theorem shape_idempotent_meter :
    let readings : List (Datum Nat) := [.string "tank", .int 3, .byte 4]
    let packed : List (Datum Nat) := [.string "tank", .array .long [.long 3, .long 4]]
    meters.Reachable ∧ meters.Describes meterOfAny ∧
      (source.shape readings meterOfAny).runFrom meters = (.ok packed, meters) ∧
      (source.gather meterOfAny packed).runFrom meters = (.ok packed, meters) ∧
      (source.conform meterOfAny packed).runFrom meters = (.ok packed, meters) ∧
      (source.shape packed meterOfAny).runFrom meters = (.ok packed, meters) ∧
      ¬meters.NeedsNoGathering meterOfAny readings := by
  intro readings packed
  obtain ⟨⟨hgather, -, hshape⟩, hself⟩ :=
    meters_reachable.shape_idempotent (k := meterOfAny) rfl readings
  obtain ⟨⟨-, hconform, -⟩, -⟩ := meters_reachable.shape_idempotent (k := meterOfAny) rfl packed
  have hrefl := Steps.refl meters
  refine ⟨meters_reachable, rfl, rfl, hgather packed meters rfl meters hrefl,
    hconform packed meters rfl meters hrefl, hshape packed meters rfl meters hrefl, ?_⟩
  intro hneedless
  have hkept := (hself readings).1.mpr hneedless
  have hpacked : (source.gather meterOfAny readings).runFrom meters = (.ok packed, meters) := rfl
  rw [hpacked] at hkept
  simp [packed, readings] at hkept

end BestFit.Store
