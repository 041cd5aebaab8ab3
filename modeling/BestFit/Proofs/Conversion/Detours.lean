import BestFit.Proofs.Conversion.Hierarchy

/-!
# Where two conversions do not make one

With boxing, two conversions in a row may lead where no single one does: `char` converts to
`int` and `int` to `Number`, but `char` does not convert to `Number`. `Detour` lists all ways
of this kind; they go by built-in types only. Main statements: `Converts.trans_iff`, conversion
is transitive but for detours, and `Converts.trans_of_common`, it is transitive between types
that one and the same type converts to.
-/
namespace BestFit

open TypeHandle

namespace Primitive

theorem wrapper_ne_number {p : Primitive} {w : TypeHandle} (h : p.wrapper? = some w) :
    w ≠ .number := by
  cases p <;> cases h <;> decide

/-- A primitive type, or the class that boxes its values. -/
def HasForm (p : Primitive) (a : TypeHandle) : Prop := a = p.handle ∨ p.wrapper? = some a

theorem not_same_or_widens {p q : Primitive} (h : p.widensTo q = true) :
    ¬(q = p ∨ q.widensTo p = true) := by
  intro hback
  rcases hback with heq | hback
  · subst heq
    have hself := widensTo_asymm h
    rw [h] at hself
    cases hself
  · rw [widensTo_asymm h] at hback
    cases hback

end Primitive

namespace Catalog

variable {c : Catalog} {boxing : Bool} {x a b e : TypeHandle}

/-- Two conversions in a row that no single conversion comes to. Null converts to a wrapper,
and that to primitive types, which null does not convert to. A primitive type, or its wrapper,
widens to a primitive type that is boxed to a class of its own, or to `Number`, which only
the wrappers of numbers lie below. -/
inductive Detour : TypeHandle → TypeHandle → TypeHandle → Prop
  | unboxed {p q : Primitive} {w : TypeHandle} (hw : p.wrapper? = some w)
      (hpq : p = q ∨ p.widensTo q = true) : Detour .null w q.handle
  | boxed {p q : Primitive} {a e : TypeHandle} (ha : p.HasForm a) (hpq : p.widensTo q = true)
      (he : q.wrapper? = some e ∨ e = .number ∧ p.isNumeric = false) : Detour a q.handle e

/-- Null converts to declared reference types. -/
theorem Converts.of_null (h : c.Converts boxing .null b) :
    Primitive.ofHandle? b = none ∧ c.contains b = true := by
  generalize ha : TypeHandle.null = a at h
  cases h with
  | null _ _ hp hcon => exact ⟨hp, hcon⟩
  | same _ hn => exact absurd ha.symm hn
  | widen => exact absurd ha.symm (Primitive.handle_ne_null _)
  | refer _ _ hn => exact absurd ha.symm hn
  | box => exact absurd ha.symm (Primitive.handle_ne_null _)
  | unbox _ hw => exact absurd ha.symm (Primitive.wrapper_ne_null hw)

/-! ## What makes a detour -/

/-- Where `p` widens to `q`, all that `q` is boxed to is boxed from `p` as well, unless the way
by `q` is a detour. -/
theorem refers_or_detour (hc : c.Lawful) {p q : Primitive} {w : TypeHandle}
    (hpq : p = q ∨ p.widensTo q = true) (hw : q.wrapper? = some w) (hwe : c.Refers w e) :
    (∃ v, p.wrapper? = some v ∧ c.Refers v e) ∨ ∀ a, p.HasForm a → Detour a q.handle e := by
  rcases hpq with rfl | hpq
  · exact .inl ⟨w, hw, hwe⟩
  obtain ⟨v, hv⟩ := Primitive.exists_wrapper_of_widensTo hpq
  rcases (hc.refers_wrapper_iff hw).mp hwe with rfl | rfl | ⟨rfl, -⟩
  · right
    intro a ha
    exact .boxed ha hpq (.inl hw)
  · exact .inl ⟨v, hv, .root (hc.contains_wrapper hv) hc.contains_object⟩
  · cases hnum : p.isNumeric with
    | true => exact .inl ⟨v, hv, (hc.refers_wrapper_iff hv).mpr (.inr (.inr ⟨rfl, hnum⟩))⟩
    | false =>
      right
      intro a ha
      exact .boxed ha hpq (.inr ⟨rfl, hnum⟩)

/-- Conversion out of null: transitive up to the primitive types. -/
theorem Converts.trans_null (hc : c.Lawful) (hab : c.Converts boxing .null b)
    (hbe : c.Converts boxing b e) : c.Converts boxing .null e ∨ Detour .null b e := by
  obtain ⟨hpb, hcb⟩ := hab.of_null
  cases hpe : Primitive.ofHandle? e with
  | some q =>
    obtain rfl := Primitive.eq_handle_of_ofHandle? hpe
    obtain ⟨-, p, hw, hpq⟩ := hbe.of_reference_primitive hpb
    exact .inr (.unboxed hw hpq)
  | none =>
    have hce : c.contains e = true := by
      rcases hbe.of_reference (hab.right_ne_null hc) hpb hpe with rfl | h
      · exact hcb
      · exact h.contains_right
    exact .inl (.null hbe.right_ne_absent (hbe.right_ne_null hc) hpe hce)

/-- Conversion from a reference type, which is a wrapper then, through a primitive type. -/
theorem Converts.trans_of_wrapper (hc : c.Lawful) (ha : Primitive.ofHandle? a = none)
    {q : Primitive} (haq : c.Converts boxing a q.handle) (hqe : c.Converts boxing q.handle e) :
    c.Converts boxing a e ∨ Detour a q.handle e := by
  obtain ⟨hboxing, p, hv, hpq⟩ := haq.of_reference_primitive ha
  cases hpe : Primitive.ofHandle? e with
  | some r =>
    obtain rfl := Primitive.eq_handle_of_ofHandle? hpe
    have hqr := converts_primitive_iff.mp hqe
    exact .inl (.unbox hboxing hv (Primitive.same_or_widens_trans hpq hqr))
  | none =>
    obtain ⟨-, w, hw, hwe⟩ := hqe.of_primitive_reference hc hpe
    rcases refers_or_detour hc hpq hw hwe with ⟨v, hv', hve⟩ | hdetour
    · obtain rfl := Option.some.inj (hv.symm.trans hv')
      exact .inl (.refer haq.left_ne_absent hqe.right_ne_absent (Primitive.wrapper_ne_null hv)
        ha hpe hve)
    · exact .inr (hdetour a (.inr hv))

/-- Conversion from a primitive type through another one. -/
theorem Converts.trans_of_primitive (hc : c.Lawful) {p q : Primitive}
    (hpq : c.Converts boxing p.handle q.handle) (hqe : c.Converts boxing q.handle e) :
    c.Converts boxing p.handle e ∨ Detour p.handle q.handle e := by
  have hwiden := converts_primitive_iff.mp hpq
  cases hpe : Primitive.ofHandle? e with
  | some r =>
    obtain rfl := Primitive.eq_handle_of_ofHandle? hpe
    have hqr := converts_primitive_iff.mp hqe
    exact .inl (converts_primitive_iff.mpr (Primitive.same_or_widens_trans hwiden hqr))
  | none =>
    obtain ⟨hboxing, w, hw, hwe⟩ := hqe.of_primitive_reference hc hpe
    rcases refers_or_detour hc hwiden hw hwe with ⟨v, hv, hve⟩ | hdetour
    · exact .inl (.box hboxing hv hqe.right_ne_absent hpe (.inr hve))
    · exact .inr (hdetour p.handle (.inl rfl))

theorem Converts.trans_or_detour (hc : c.Lawful) (hab : c.Converts boxing a b)
    (hbe : c.Converts boxing b e) : c.Converts boxing a e ∨ Detour a b e := by
  by_cases hna : a = .null
  · subst hna
    exact hab.trans_null hc hbe
  have hnb := hab.right_ne_null hc
  cases hpa : Primitive.ofHandle? a with
  | none =>
    cases hpb : Primitive.ofHandle? b with
    | none => exact .inl (.trans_of_references hc hna hnb hpa hpb hab hbe)
    | some q =>
      obtain rfl := Primitive.eq_handle_of_ofHandle? hpb
      exact hab.trans_of_wrapper hc hpa hbe
  | some p =>
    obtain rfl := Primitive.eq_handle_of_ofHandle? hpa
    cases hpb : Primitive.ofHandle? b with
    | none => exact .inl (.trans_through_reference hc hnb hpb hab hbe)
    | some q =>
      obtain rfl := Primitive.eq_handle_of_ofHandle? hpb
      exact hab.trans_of_primitive hc hbe

/-! ## What a detour rules out -/

/-- Boxed or not, primitive types convert to each other as they widen. -/
theorem Converts.same_or_widens (hc : c.Lawful) {p q : Primitive} (ha : p.HasForm a)
    (hb : q.HasForm b) (h : c.Converts boxing a b) : p = q ∨ p.widensTo q = true := by
  rcases ha with rfl | hv
  · rcases hb with rfl | hw
    · exact converts_primitive_iff.mp h
    · obtain ⟨-, v, hv, hvb⟩ := h.of_primitive_reference hc (Primitive.ofHandle?_wrapper hw)
      obtain rfl := hc.eq_wrapper_of_refers hw hvb
      exact .inl (Primitive.eq_of_wrapper hv hw)
  · have hpa := Primitive.ofHandle?_wrapper hv
    rcases hb with rfl | hw
    · obtain ⟨-, r, hr, hrq⟩ := h.of_reference_primitive hpa
      obtain rfl := Primitive.eq_of_wrapper hv hr
      exact hrq
    · left
      rcases h.of_reference (Primitive.wrapper_ne_null hv) hpa (Primitive.ofHandle?_wrapper hw)
        with rfl | h
      · exact Primitive.eq_of_wrapper hv hw
      · obtain rfl := hc.eq_wrapper_of_refers hw h
        exact Primitive.eq_of_wrapper hv hw

/-- Where a detour by boxing ends, no wrapper refers to but those of wider primitives. -/
theorem same_or_widens_of_refers (hc : c.Lawful) {p q r : Primitive} {u : TypeHandle}
    (he : q.wrapper? = some e ∨ e = .number ∧ p.isNumeric = false)
    (hu : r.wrapper? = some u) (hue : c.Refers u e) (hrp : r = p ∨ r.widensTo p = true) :
    q = p ∨ q.widensTo p = true := by
  rcases he with hw | ⟨rfl, hnum⟩
  · obtain rfl := hc.eq_wrapper_of_refers hw hue
    obtain rfl := Primitive.eq_of_wrapper hu hw
    exact hrp
  · -- what refers to `Number` is the wrapper of a number, and numbers widen to numbers
    exfalso
    rcases (hc.refers_wrapper_iff hu).mp hue with h | h | ⟨-, h⟩
    · exact Primitive.wrapper_ne_number hu h.symm
    · cases h
    · have hp : p.isNumeric = true := by
        rcases hrp with rfl | hrp
        · exact h
        · exact Primitive.isNumeric_of_widensTo hrp
      rw [hnum] at hp
      cases hp

theorem ofHandle?_of_boxed {p q : Primitive}
    (he : q.wrapper? = some e ∨ e = .number ∧ p.isNumeric = false) :
    Primitive.ofHandle? e = none := by
  rcases he with hw | ⟨rfl, -⟩
  · exact Primitive.ofHandle?_wrapper hw
  · decide

/-- A type that converts to a primitive type and to a reference type is a primitive type
with a wrapper, or such a wrapper, and the wrapper refers to the reference type. -/
theorem Converts.origin (hc : c.Lawful) {q : Primitive} (he : Primitive.ofHandle? e = none)
    (hxq : c.Converts boxing x q.handle) (hxe : c.Converts boxing x e) :
    ∃ (r : Primitive) (u : TypeHandle), r.HasForm x ∧ r.wrapper? = some u ∧ c.Refers u e := by
  cases hpx : Primitive.ofHandle? x with
  | some r =>
    obtain rfl := Primitive.eq_handle_of_ofHandle? hpx
    obtain ⟨-, u, hu, hue⟩ := hxe.of_primitive_reference hc he
    exact ⟨r, u, .inl rfl, hu, hue⟩
  | none =>
    obtain ⟨-, r, hr, -⟩ := hxq.of_reference_primitive hpx
    refine ⟨r, x, .inr hr, hr, ?_⟩
    rcases hxe.of_reference (Primitive.wrapper_ne_null hr) hpx he with rfl | h
    · exact .refl (hc.contains_wrapper hr)
    · exact h

/-- No type converts to all three types of a detour. -/
theorem Detour.not_common (hc : c.Lawful) (h : Detour a b e) (hxa : c.Converts boxing x a)
    (hxb : c.Converts boxing x b) : ¬c.Converts boxing x e := by
  intro hxe
  cases h with
  | unboxed _ _ => exact hxa.right_ne_null hc rfl
  | boxed ha hpq he =>
    obtain ⟨r, u, hx, hu, hue⟩ := hxb.origin hc (ofHandle?_of_boxed he) hxe
    have hrp := hxa.same_or_widens hc hx ha
    exact Primitive.not_same_or_widens hpq (same_or_widens_of_refers hc he hu hue hrp)

/-- No single conversion leads from the start of a detour to its end. -/
theorem Detour.not_converts (hc : c.Lawful) (h : Detour a b e) (hab : c.Converts boxing a b) :
    ¬c.Converts boxing a e := by
  by_cases hna : a = .null
  · intro hae
    subst hna
    obtain ⟨hp, -⟩ := hae.of_null
    generalize hn : TypeHandle.null = a at h
    cases h with
    | unboxed _ _ => simp at hp
    | boxed ha _ _ =>
      rcases ha with ha | hv
      · exact Primitive.handle_ne_null _ (hn.trans ha).symm
      · exact Primitive.wrapper_ne_null hv hn.symm
  · exact h.not_common hc (.same hab.left_ne_absent hna) hab

/-- The end of a detour does not convert to its start. -/
theorem Detour.not_back (hc : c.Lawful) (h : Detour a b e) : ¬c.Converts boxing e a := by
  intro hback
  cases h with
  | unboxed _ _ => exact hback.right_ne_null hc rfl
  | boxed ha hpq he =>
    rcases he with hw | ⟨rfl, -⟩
    · exact Primitive.not_same_or_widens hpq (hback.same_or_widens hc (.inr hw) ha)
    · rcases ha with rfl | hv
      · obtain ⟨-, r, hr, -⟩ := hback.of_reference_primitive (by decide)
        exact Primitive.wrapper_ne_number hr rfl
      · rcases hback.of_reference (by decide) (by decide) (Primitive.ofHandle?_wrapper hv)
          with rfl | h
        · exact Primitive.wrapper_ne_number hv rfl
        · exact Primitive.wrapper_ne_number hv (hc.eq_wrapper_of_refers hv h).symm

/-! ## Transitivity -/

/-- Conversion is transitive but for detours. -/
theorem Converts.trans_iff (hc : c.Lawful) (hab : c.Converts boxing a b)
    (hbe : c.Converts boxing b e) : c.Converts boxing a e ↔ ¬Detour a b e := by
  constructor
  · intro hae hdetour
    exact hdetour.not_converts hc hab hae
  · intro hnot
    rcases hab.trans_or_detour hc hbe with h | h
    · exact h
    · exact absurd h hnot

/-- Conversion is transitive between types that one type converts to. -/
theorem Converts.trans_of_common (hc : c.Lawful) (hxa : c.Converts boxing x a)
    (hxb : c.Converts boxing x b) (hxe : c.Converts boxing x e) (hab : c.Converts boxing a b)
    (hbe : c.Converts boxing b e) : c.Converts boxing a e :=
  (hab.trans_iff hc hbe).mpr fun h => h.not_common hc hxa hxb hxe

/-- Where conversion goes round in a circle of three, it leads back every step. -/
theorem Converts.back_of_circle (hc : c.Lawful) (hab : c.Converts boxing a b)
    (hbe : c.Converts boxing b e) (hea : c.Converts boxing e a) : c.Converts boxing b a :=
  (hbe.trans_iff hc hea).mpr fun h => h.not_back hc hab

/-- Without boxing there are no detours. -/
theorem Detour.boxing_eq_true (hc : c.Lawful) (h : Detour a b e)
    (hbe : c.Converts boxing b e) : boxing = true := by
  cases h with
  | unboxed hw _ => exact (hbe.of_reference_primitive (Primitive.ofHandle?_wrapper hw)).1
  | boxed _ _ he => exact (hbe.of_primitive_reference hc (ofHandle?_of_boxed he)).1

end Catalog

end BestFit
