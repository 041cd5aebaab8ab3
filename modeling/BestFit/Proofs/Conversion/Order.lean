import BestFit.Proofs.Store.Consistency
import Mathlib.Order.Defs.Unbundled

/-!
# Conversion as an order

Without boxing, the declared types of a store, null aside, are partially ordered by conversion.
Main statement: `Reachable.isPartialOrder_converts`. That conversion does not go round in circles
rests on the store: links lead to what was declared before, and a component has one array type.
With boxing there is no such order, as a primitive type and its wrapper convert to each other.
-/
namespace BestFit

open TypeHandle
open Relation (ReflTransGen TransGen)

namespace Catalog

variable {c : Catalog} {a b e : TypeHandle}

/-- Without boxing, conversion keeps to the primitive or to the reference types. -/
theorem Converts.same_side (hn : a ≠ .null) (h : c.Converts false a b) :
    (∃ p q : Primitive, a = p.handle ∧ b = q.handle ∧ (p = q ∨ p.widensTo q = true)) ∨
      (Primitive.ofHandle? a = none ∧ Primitive.ofHandle? b = none ∧ (a = b ∨ c.Refers a b)) := by
  cases h with
  | null => exact absurd rfl hn
  | same =>
    cases hp : Primitive.ofHandle? a with
    | none => exact .inr ⟨rfl, rfl, .inl rfl⟩
    | some p =>
      obtain rfl := Primitive.eq_handle_of_ofHandle? hp
      exact .inl ⟨p, p, rfl, rfl, .inl rfl⟩
  | @widen p q h => exact .inl ⟨p, q, rfl, rfl, .inr h⟩
  | refer _ _ _ hp hq h => exact .inr ⟨hp, hq, .inr h⟩
  | box hboxing => cases hboxing
  | unbox hboxing => cases hboxing

/-- Without boxing, conversion is transitive. -/
theorem Converts.trans_unboxed (hc : c.Lawful) (ha : a ≠ .null) (hb : b ≠ .null)
    (hab : c.Converts false a b) (hbe : c.Converts false b e) : c.Converts false a e := by
  rcases hab.same_side ha with ⟨p, q, rfl, rfl, hpq⟩ | ⟨hpa, hpb, -⟩
  · rcases hbe.same_side hb with ⟨q', r, hq, rfl, hqr⟩ | ⟨hpb, -, -⟩
    · obtain rfl := Primitive.handle_injective hq
      exact converts_primitive_iff.mpr (Primitive.same_or_widens_trans hpq hqr)
    · simp at hpb
  · exact .trans_of_references hc ha hb hpa hpb hab hbe

end Catalog

/-- Primitive types that widen to each other are the same. -/
theorem Primitive.same_or_widens_antisymm {p q : Primitive} (h : p = q ∨ p.widensTo q = true)
    (h' : q = p ∨ q.widensTo p = true) : p = q := by
  rcases h with h | h
  · exact h
  rcases h' with h' | h'
  · exact h'.symm
  · rw [Primitive.widensTo_asymm h] at h'
    cases h'

namespace Store

variable {ω π : Type} {s : Store ω π} {a b : TypeHandle}

namespace WellFormed

variable (hs : s.WellFormed)
include hs

theorem eq_of_above (hab : ReflTransGen s.catalog.IsParent a b)
    (hba : ReflTransGen s.catalog.IsParent b a) : a = b := by
  rcases Relation.reflTransGen_iff_eq_or_transGen.mp hab with h | hab
  · exact h.symm
  · have hcircle : TransGen s.catalog.Names a a :=
      TransGen.mono (fun _ _ => Catalog.IsParent.names) _ _ (hab.trans_left hba)
    exact absurd hcircle (hs.not_transGen_self a)

/-- Reference types that refer to each other are the same. -/
theorem refers_antisymm (hab : s.catalog.Refers a b) (hba : s.catalog.Refers b a) : a = b := by
  have hc := hs.lawful
  -- on the rule for one direction; what the other comes to is read off its own rule
  induction hab with
  | root => exact hc.eq_object_of_refers hba
  | sameComponent ha hb => exact hs.arrays ha hb
  | component ha hb _ _ _ ih =>
    obtain ⟨-, -, rfl | ⟨hn, -⟩ | ⟨y, x, hb', ha', h⟩⟩ := Catalog.refers_iff.mp hba
    · exact absurd ha (Catalog.not_hasComponent hc.component?_object)
    · exact absurd hb (Catalog.not_hasComponent hn)
    · obtain rfl := Option.some.inj (hb.symm.trans hb')
      obtain rfl := Option.some.inj (ha.symm.trans ha')
      rcases h with rfl | ⟨-, -, h⟩
      · exact hs.arrays ha hb
      · obtain rfl := ih h
        exact hs.arrays ha hb
  | climb _ _ hn hup =>
    obtain ⟨-, -, rfl | ⟨-, hup'⟩ | ⟨y, x, -, ha, -⟩⟩ := Catalog.refers_iff.mp hba
    · exact (hc.eq_object_of_above hup).symm
    · exact hs.eq_of_above hup hup'
    · exact absurd ha (Catalog.not_hasComponent hn)

theorem converts_antisymm (ha : a ≠ .null) (hb : b ≠ .null)
    (hab : s.catalog.Converts false a b) (hba : s.catalog.Converts false b a) : a = b := by
  rcases hab.same_side ha with ⟨p, q, rfl, rfl, hpq⟩ | ⟨hpa, -, hab⟩
  · rw [Primitive.same_or_widens_antisymm hpq (Catalog.converts_primitive_iff.mp hba)]
  · rcases hba.same_side hb with ⟨q, p, rfl, rfl, -⟩ | ⟨-, -, hba⟩
    · simp at hpa
    rcases hab with hab | hab
    · exact hab
    rcases hba with hba | hba
    · exact hba.symm
    · exact hs.refers_antisymm hab hba

end WellFormed

/-- Without boxing, conversion partially orders the declared types other than null. -/
theorem Reachable.isPartialOrder_converts (h : s.Reachable) :
    IsPartialOrder {t : TypeHandle // s.catalog.contains t = true ∧ t ≠ .null}
      fun a b => s.catalog.converts false a b = true where
  refl := by
    rintro ⟨a, ha, hn⟩
    exact Catalog.converts_same (ne_absent_of_contains ha) hn
  trans := by
    rintro ⟨a, _, ha⟩ ⟨b, _, hb⟩ ⟨e, _, _⟩ hab hbe
    have hc := h.wellFormed.lawful
    have hab := (Catalog.converts_iff hc.finite).mp hab
    have hbe := (Catalog.converts_iff hc.finite).mp hbe
    exact (hab.trans_unboxed hc ha hb hbe).converts hc.finite
  antisymm := by
    rintro ⟨a, _, ha⟩ ⟨b, _, hb⟩ hab hba
    have hs := h.wellFormed
    have hab := (Catalog.converts_iff hs.lawful.finite).mp hab
    have hba := (Catalog.converts_iff hs.lawful.finite).mp hba
    exact Subtype.ext (hs.converts_antisymm ha hb hab hba)

/-- Dogs are animals and animals are objects, so dogs are objects and no animal is a dog. -/
theorem isPartialOrder_converts_kennels :
    kennels.Reachable ∧ kennels.catalog.converts false ⟨101⟩ .object = true ∧
    kennels.catalog.converts false ⟨100⟩ ⟨101⟩ = false := by
  have hreach := kennels_ownReachable.reachable
  have horder := hreach.isPartialOrder_converts
  have hdog : kennels.catalog.converts false ⟨101⟩ ⟨100⟩ = true := by decide
  have hanimal : kennels.catalog.converts false ⟨100⟩ .object = true := by decide
  refine ⟨hreach, ?_, ?_⟩
  · exact horder.trans ⟨⟨101⟩, by decide⟩ ⟨⟨100⟩, by decide⟩ ⟨.object, by decide⟩ hdog hanimal
  · refine Bool.eq_false_iff.mpr fun hback => ?_
    have heq := horder.antisymm ⟨⟨100⟩, by decide⟩ ⟨⟨101⟩, by decide⟩ hback hdog
    exact absurd (congrArg Subtype.val heq) (by decide)

end Store

end BestFit
