import BestFit.Proofs.Conversion.Reference

/-!
# Conversion as a relation

`Catalog.Converts` lists the rules by which a type converts to another, one constructor
a rule: null, identity, widening, reference conversion, boxing and unboxing. Main
statement: `converts_iff`, the computed answer is the existence of a rule.
-/
namespace BestFit

open TypeHandle

namespace Primitive

theorem handle_ne_absent (p : Primitive) : p.handle ≠ absent := by
  cases p <;> decide

theorem handle_ne_null (p : Primitive) : p.handle ≠ null := by
  cases p <;> decide

theorem handle_injective {p q : Primitive} (h : p.handle = q.handle) : p = q := by
  have hp := ofHandle?_handle p
  rw [h, ofHandle?_handle] at hp
  exact (Option.some.inj hp).symm

theorem ofWrapper?_eq_some {t : TypeHandle} {p : Primitive} :
    ofWrapper? t = some p ↔ p.wrapper? = some t := by
  constructor
  · intro h
    have hp := List.find?_some h
    exact beq_iff_eq.mp hp
  · exact ofWrapper?_wrapper

section Wrapper

variable {p : Primitive} {w : TypeHandle} (h : p.wrapper? = some w)
include h

theorem wrapper_ne_absent : w ≠ absent := by
  cases p <;> cases h <;> decide

theorem wrapper_ne_null : w ≠ null := by
  cases p <;> cases h <;> decide

/-- A wrapper is a class, not a primitive type. -/
theorem ofHandle?_wrapper : ofHandle? w = none := by
  cases p <;> cases h <;> decide

end Wrapper

end Primitive

namespace Catalog

variable {c : Catalog} {boxing : Bool}

/-- The rules of conversion. Null converts to every declared reference type but its own;
every other type to itself; a primitive type to those it widens to; a reference type
along `Refers`. With boxing, a primitive type converts to what its wrapper refers to, and
a wrapper to what its primitive type widens to. -/
inductive Converts (c : Catalog) (boxing : Bool) : TypeHandle → TypeHandle → Prop
  | null {b : TypeHandle} (hb : b ≠ absent) (hn : b ≠ .null)
      (hp : Primitive.ofHandle? b = none) (hc : c.contains b = true) :
      Converts c boxing .null b
  | same {a : TypeHandle} (ha : a ≠ absent) (hn : a ≠ .null) : Converts c boxing a a
  | widen {p q : Primitive} (h : p.widensTo q = true) : Converts c boxing p.handle q.handle
  | refer {a b : TypeHandle} (ha : a ≠ absent) (hb : b ≠ absent) (hn : a ≠ .null)
      (hp : Primitive.ofHandle? a = none) (hq : Primitive.ofHandle? b = none)
      (h : c.Refers a b) : Converts c boxing a b
  | box {p : Primitive} {w b : TypeHandle} (hboxing : boxing = true)
      (hw : p.wrapper? = some w) (hb : b ≠ absent) (hq : Primitive.ofHandle? b = none)
      (h : w = b ∨ c.Refers w b) : Converts c boxing p.handle b
  | unbox {a : TypeHandle} {p q : Primitive} (hboxing : boxing = true)
      (hw : p.wrapper? = some a) (h : p = q ∨ p.widensTo q = true) :
      Converts c boxing a q.handle

/-- Conversion between two different types, neither of them null, as it is computed. -/
theorem conversion?_of_ne {levels : Nat} {a b : TypeHandle} (ha : a ≠ absent)
    (hb : b ≠ absent) (hn : a ≠ .null) (hab : a ≠ b) :
    c.conversion? levels boxing a b =
      match adapted boxing a b with
      | none => some false
      | some a' => if a' = b then some true else c.widensOrRefers levels a' b := by
  cases hadapted : adapted boxing a b <;>
    simp only [conversion?, isPresent, bne_iff_ne.mpr ha, bne_iff_ne.mpr hb, if_neg hn,
      if_neg hab, Bool.not_true, Bool.or_self, Bool.false_eq_true, if_false, hadapted]

section Different

variable {a b : TypeHandle} (hb : b ≠ absent) (hab : a ≠ b)
include hb hab

/-- Conversion from a reference type: along `Refers`, or out of a wrapper. -/
theorem Converts.of_conversion_reference (hfin : c.FiniteNesting) (ha : a ≠ absent)
    (hn : a ≠ .null) (hp : Primitive.ofHandle? a = none)
    (h : c.conversion? c.levels boxing a b = some true) : c.Converts boxing a b := by
  rw [conversion?_of_ne ha hb hn hab] at h
  cases hq : Primitive.ofHandle? b with
  | none =>
    simp [adapted, hp, hq, hab, widensOrRefers, refersTo_levels_iff hfin] at h
    exact .refer ha hb hn hp hq h
  | some q =>
    obtain rfl := Primitive.eq_handle_of_ofHandle? hq
    cases boxing with
    | false => simp [adapted, hp, hq, hab, widensOrRefers] at h
    | true =>
      cases hw : Primitive.ofWrapper? a with
      | none => simp [adapted, hp, hq, hw] at h
      | some p =>
        refine .unbox rfl (Primitive.ofWrapper?_eq_some.mp hw) ?_
        by_cases hpq : p = q
        · exact .inl hpq
        · have hne : p.handle ≠ q.handle := fun h => hpq (Primitive.handle_injective h)
          simp [adapted, hp, hw, hne, widensOrRefers] at h
          exact .inr h

/-- Conversion from a primitive type: by widening, or from its wrapper on. -/
theorem Converts.of_conversion_primitive (hfin : c.FiniteNesting) {p : Primitive}
    (hp : Primitive.ofHandle? a = some p)
    (h : c.conversion? c.levels boxing a b = some true) : c.Converts boxing a b := by
  obtain rfl := Primitive.eq_handle_of_ofHandle? hp
  rw [conversion?_of_ne p.handle_ne_absent hb p.handle_ne_null hab] at h
  cases hq : Primitive.ofHandle? b with
  | none =>
    cases boxing with
    | false => simp [adapted, hp, hq, hab, widensOrRefers] at h
    | true =>
      cases hw : p.wrapper? with
      | none => simp [adapted, hp, hq, hw] at h
      | some w =>
        refine .box rfl hw hb hq ?_
        by_cases hwb : w = b
        · exact .inl hwb
        · simp [adapted, hp, hq, hw, hwb, widensOrRefers, Primitive.ofHandle?_wrapper hw,
            refersTo_levels_iff hfin] at h
          exact .inr h
  | some q =>
    obtain rfl := Primitive.eq_handle_of_ofHandle? hq
    simp [adapted, hab, widensOrRefers] at h
    exact .widen h

end Different

theorem Converts.of_converts (hfin : c.FiniteNesting) {a b : TypeHandle}
    (h : c.converts boxing a b = true) : c.Converts boxing a b := by
  have h : c.conversion? c.levels boxing a b = some true := beq_iff_eq.mp h
  by_cases ha : a = absent
  · simp [conversion?, isPresent, ha] at h
  by_cases hb : b = absent
  · simp [conversion?, isPresent, hb] at h
  by_cases hn : a = .null
  · subst hn
    simp [conversion?, isPresent, ha, hb] at h
    exact .null hb h.1.1 h.1.2 h.2
  by_cases hab : a = b
  · subst hab
    exact .same ha hn
  cases hp : Primitive.ofHandle? a with
  | none => exact .of_conversion_reference hb hab hfin ha hn hp h
  | some p => exact .of_conversion_primitive hb hab hfin hp h

theorem converts_same {a : TypeHandle} (ha : a ≠ absent) (hn : a ≠ .null) :
    c.converts boxing a a = true := by
  simp [converts, conversion?, isPresent, ha, hn]

theorem Converts.converts (hfin : c.FiniteNesting) {a b : TypeHandle}
    (h : c.Converts boxing a b) : c.converts boxing a b = true := by
  by_cases hab : a = b ∧ a ≠ absent ∧ a ≠ .null
  · obtain ⟨rfl, ha, hn⟩ := hab
    exact converts_same ha hn
  refine beq_iff_eq.mpr ?_
  -- the rules that remain relate different types
  have hne (ha : a ≠ absent) (hn : a ≠ .null) : a ≠ b := fun h => hab ⟨h, ha, hn⟩
  cases h with
  | null hb hn hp hc =>
    have hnull : TypeHandle.null ≠ absent := by decide
    simp [conversion?, isPresent, hnull, hb, hn, hp, hc]
  | same ha hn => exact absurd rfl (hne ha hn)
  | @widen p q h =>
    have ha := p.handle_ne_absent
    have hn := p.handle_ne_null
    rw [conversion?_of_ne ha q.handle_ne_absent hn (hne ha hn)]
    simp [adapted, hne ha hn, widensOrRefers, h]
  | refer ha hb hn hp hq h =>
    rw [conversion?_of_ne ha hb hn (hne ha hn)]
    simp [adapted, hp, hq, hne ha hn, widensOrRefers, (refersTo_levels_iff hfin).mpr h]
  | @box p w b hboxing hw hb hq h =>
    have ha := p.handle_ne_absent
    have hn := p.handle_ne_null
    rw [conversion?_of_ne ha hb hn (hne ha hn)]
    rcases h with rfl | h
    · simp [adapted, hboxing, hq, hw]
    · simp [adapted, hboxing, hq, hw, widensOrRefers, Primitive.ofHandle?_wrapper hw,
        (refersTo_levels_iff hfin).mpr h]
  | @unbox _ p q hboxing hw h =>
    have ha := Primitive.wrapper_ne_absent hw
    have hn := Primitive.wrapper_ne_null hw
    have hp := Primitive.ofHandle?_wrapper hw
    rw [conversion?_of_ne ha q.handle_ne_absent hn (hne ha hn)]
    rcases h with rfl | h
    · simp [adapted, hboxing, hp, Primitive.ofWrapper?_wrapper hw]
    · simp [adapted, hboxing, hp, Primitive.ofWrapper?_wrapper hw, widensOrRefers, h]

/-- Conversion is computed by its rules. -/
theorem converts_iff (hfin : c.FiniteNesting) {a b : TypeHandle} :
    c.converts boxing a b = true ↔ c.Converts boxing a b :=
  ⟨.of_converts hfin, Converts.converts hfin⟩

end Catalog

end BestFit
