import BestFit.Catalog.Builtin
import BestFit.Proofs.Conversion.Rules

/-!
# Conversion in a lawful hierarchy

A catalog is lawful if it has the built-in types as they are, only classes open to
extension and interfaces are extended, and array types do not nest without end. There
reference conversion is transitive (`Refers.trans`), and so is conversion through reference
types (`Converts.trans_of_references`, `Converts.trans_through_reference`).
-/
namespace BestFit

open TypeHandle
open Relation (ReflTransGen)

/-- The primitives whose wrappers are numbers. -/
def Primitive.isNumeric : Primitive → Bool
  | .byte | .short | .int | .long | .float | .double => true
  | .boolean | .char | .void => false

theorem Primitive.isNumeric_of_widensTo {p q : Primitive} (h : p.widensTo q = true) :
    q.isNumeric = true := by
  cases p <;> cases q <;> revert h <;> decide

/-- Staying the same or widening, twice in a row, is one or the other. -/
theorem Primitive.same_or_widens_trans {p q r : Primitive} (h : p = q ∨ p.widensTo q = true)
    (h' : q = r ∨ q.widensTo r = true) : p = r ∨ p.widensTo r = true := by
  rcases h with rfl | h
  · exact h'
  · rcases h' with rfl | h'
    · exact .inr h
    · exact .inr (widensTo_trans h h')

/-- Only what has a wrapper takes part in widening. -/
theorem Primitive.exists_wrapper_of_widensTo {p q : Primitive} (h : p.widensTo q = true) :
    ∃ w, p.wrapper? = some w := by
  cases p <;> cases q <;> revert h <;> simp [widensTo, widenings, wrapper?]

theorem Primitive.eq_of_wrapper {p q : Primitive} {w : TypeHandle} (hp : p.wrapper? = some w)
    (hq : q.wrapper? = some w) : p = q :=
  Option.some.inj ((ofWrapper?_wrapper hp).symm.trans (ofWrapper?_wrapper hq))

theorem Primitive.wrapper_builtin {p : Primitive} {w : TypeHandle} (hw : p.wrapper? = some w) :
    w.index < firstDeclared := by
  cases p <;> cases hw <;> decide

/-- Wrappers are closed to extension, and lie directly below `Number` or the root. -/
theorem Builtin.decl?_wrapper {p : Primitive} {w : TypeHandle} (hw : p.wrapper? = some w) :
    ∃ d, Builtin.decl? w = some d ∧ d.shape = .classType ∧ d.modifiers.isFinal = true ∧
      d.parents = [if p.isNumeric then .number else .object] := by
  cases p <;> cases hw <;> exact ⟨_, rfl, rfl, rfl, rfl⟩

namespace Catalog

/-- The laws that the declarations of a catalog obey. -/
structure Lawful (c : Catalog) : Prop where
  builtin : ∀ t : TypeHandle, t.index < firstDeclared → c.decl? t = Builtin.decl? t
  parent : ∀ a b, c.IsParent a b → ∃ d, c.decl? b = some d ∧
    (d.shape = .interface ∨ d.shape = .classType ∧ d.modifiers.isFinal = false)
  finite : c.FiniteNesting

variable {c : Catalog} {boxing : Bool}

/-! ## Declared links -/

theorem Refers.refl {a : TypeHandle} (ha : c.contains a = true) : c.Refers a a := by
  cases hx : c.component? a with
  | none => exact .climb ha ha hx .refl
  | some x => exact .sameComponent hx hx

namespace Lawful

variable (hc : c.Lawful)
include hc

theorem contains_builtin {t : TypeHandle} {d : TypeDecl} (ht : t.index < firstDeclared)
    (hd : Builtin.decl? t = some d) : c.contains t = true :=
  (c.contains_iff t).mpr ⟨d, (hc.builtin t ht).trans hd⟩

theorem parents_builtin {t : TypeHandle} {d : TypeDecl} (ht : t.index < firstDeclared)
    (hd : Builtin.decl? t = some d) : c.parents t = d.parents := by
  simp [parents, hc.builtin t ht, hd]

theorem contains_object : c.contains .object = true :=
  hc.contains_builtin (by decide) rfl

theorem contains_wrapper {p : Primitive} {w : TypeHandle} (hw : p.wrapper? = some w) :
    c.contains w = true := by
  obtain ⟨d, hd, -⟩ := Builtin.decl?_wrapper hw
  exact hc.contains_builtin (Primitive.wrapper_builtin hw) hd

/-- What is extended is no array type. -/
theorem component?_of_isParent {a b : TypeHandle} (h : c.IsParent a b) :
    c.component? b = none := by
  obtain ⟨d, hd, hs | ⟨hs, -⟩⟩ := hc.parent a b h <;>
    simp [component?, hd, TypeDecl.component?, hs]

theorem contains_of_isParent {a b : TypeHandle} (h : c.IsParent a b) : c.contains b = true := by
  obtain ⟨d, hd, -⟩ := hc.parent a b h
  exact (c.contains_iff b).mpr ⟨d, hd⟩

/-- No wrapper is extended. -/
theorem not_isParent_wrapper {a w : TypeHandle} {p : Primitive} (hw : p.wrapper? = some w) :
    ¬c.IsParent a w := by
  intro h
  obtain ⟨d, hd, hs⟩ := hc.parent a w h
  obtain ⟨e, he, hclass, hfinal, -⟩ := Builtin.decl?_wrapper hw
  obtain rfl : e = d :=
    Option.some.inj (he.symm.trans ((hc.builtin w (Primitive.wrapper_builtin hw)).symm.trans hd))
  rcases hs with hs | ⟨-, hs⟩
  · rw [hclass] at hs
    cases hs
  · rw [hfinal] at hs
    cases hs

theorem not_isParent_null {a : TypeHandle} : ¬c.IsParent a .null := by
  intro h
  obtain ⟨d, hd, hs⟩ := hc.parent a .null h
  rw [hc.builtin .null (by decide)] at hd
  cases hd
  simp at hs

/-! ## Ends of the hierarchy -/

theorem parents_object : c.parents .object = [] :=
  (hc.parents_builtin (by decide) rfl).trans rfl

theorem parents_number : c.parents .number = [.object] :=
  (hc.parents_builtin (by decide) rfl).trans rfl

theorem parents_wrapper {p : Primitive} {w : TypeHandle} (hw : p.wrapper? = some w) :
    c.parents w = [if p.isNumeric then .number else .object] := by
  obtain ⟨d, hd, -, -, hp⟩ := Builtin.decl?_wrapper hw
  rw [hc.parents_builtin (Primitive.wrapper_builtin hw) hd, hp]

theorem component?_object : c.component? .object = none := by
  rw [component?, hc.builtin .object (by decide)]
  rfl

theorem component?_null : c.component? .null = none := by
  rw [component?, hc.builtin .null (by decide)]
  rfl

theorem component?_string : c.component? .string = none := by
  rw [component?, hc.builtin .string (by decide)]
  rfl

theorem component?_wrapper {p : Primitive} {w : TypeHandle} (hw : p.wrapper? = some w) :
    c.component? w = none := by
  obtain ⟨d, hd, hclass, -⟩ := Builtin.decl?_wrapper hw
  simp [component?, hc.builtin w (Primitive.wrapper_builtin hw), hd, TypeDecl.component?,
    hclass]

/-- Array types are no primitive types. -/
theorem ofHandle?_of_component? {a x : TypeHandle} (hx : c.component? a = some x) :
    Primitive.ofHandle? a = none := by
  rw [Option.eq_none_iff_forall_ne_some]
  intro p hp
  obtain rfl := Primitive.eq_handle_of_ofHandle? hp
  rw [component?, hc.builtin p.handle (by cases p <;> decide)] at hx
  cases p <;> cases hx

/-- Above the root there is nothing. -/
theorem eq_object_of_above {b : TypeHandle} (h : ReflTransGen c.IsParent .object b) :
    b = .object := by
  rcases ReflTransGen.cases_head h with h | ⟨u, hu, -⟩
  · exact h.symm
  · rw [IsParent, hc.parents_object] at hu
    cases hu

theorem eq_object_of_refers {b : TypeHandle} (h : c.Refers .object b) : b = .object := by
  obtain ⟨-, -, h | ⟨-, h⟩ | ⟨x, _, hx, -⟩⟩ := refers_iff.mp h
  · exact h
  · exact hc.eq_object_of_above h
  · exact absurd hx (not_hasComponent hc.component?_object)

end Lawful

/-- A type that nothing extends, neither root nor array type, has nothing below it. -/
theorem Refers.eq_of_not_isParent {a b : TypeHandle} (h : c.Refers a b) (ho : b ≠ .object)
    (hn : c.component? b = none) (hb : ∀ t, ¬c.IsParent t b) : a = b := by
  obtain ⟨-, -, h | ⟨-, h⟩ | ⟨_, y, -, hy, -⟩⟩ := refers_iff.mp h
  · exact absurd h ho
  · rcases ReflTransGen.cases_tail h with h | ⟨u, -, hu⟩
    · exact h.symm
    · exact absurd hu (hb u)
  · exact absurd hy (not_hasComponent hn)

namespace Lawful

variable (hc : c.Lawful)
include hc

theorem eq_wrapper_of_refers {a w : TypeHandle} {p : Primitive} (hw : p.wrapper? = some w)
    (h : c.Refers a w) : a = w :=
  h.eq_of_not_isParent (by cases p <;> cases hw <;> decide) (hc.component?_wrapper hw)
    fun _ => hc.not_isParent_wrapper hw

theorem eq_null_of_refers {a : TypeHandle} (h : c.Refers a .null) : a = .null :=
  h.eq_of_not_isParent (by decide) hc.component?_null fun _ => hc.not_isParent_null

/-- What a wrapper refers to: itself, the root and, for a number, `Number`. -/
theorem refers_wrapper_iff {p : Primitive} {w b : TypeHandle} (hw : p.wrapper? = some w) :
    c.Refers w b ↔ b = w ∨ b = .object ∨ (b = .number ∧ p.isNumeric = true) := by
  have hcon := hc.contains_wrapper hw
  have hnone := hc.component?_wrapper hw
  have hpar := hc.parents_wrapper hw
  constructor
  · intro h
    obtain ⟨-, -, h | ⟨-, h⟩ | ⟨x, _, hx, -⟩⟩ := refers_iff.mp h
    · exact .inr (.inl h)
    · rcases ReflTransGen.cases_head h with h | ⟨u, hu, h⟩
      · exact .inl h.symm
      rw [IsParent, hpar, List.mem_singleton] at hu
      by_cases hp : p.isNumeric = true
      · rw [if_pos hp] at hu
        subst hu
        rcases ReflTransGen.cases_head h with h | ⟨u, hu, h⟩
        · exact .inr (.inr ⟨h.symm, hp⟩)
        · rw [IsParent, hc.parents_number, List.mem_singleton] at hu
          subst hu
          exact .inr (.inl (hc.eq_object_of_above h))
      · rw [if_neg hp] at hu
        subst hu
        exact .inr (.inl (hc.eq_object_of_above h))
    · exact absurd hx (not_hasComponent hnone)
  · rintro (rfl | rfl | ⟨rfl, hp⟩)
    · exact .refl hcon
    · exact .root hcon hc.contains_object
    · refine .climb hcon (hc.contains_builtin (by decide) rfl) hnone (.single ?_)
      rw [IsParent, hpar, if_pos hp]
      exact List.mem_singleton_self _

end Lawful

/-! ## Transitivity of reference conversion -/

/-- What lies above a type that is no array type is no array type. -/
theorem Lawful.component?_of_above (hc : c.Lawful) {a b : TypeHandle}
    (ha : c.component? a = none) (h : ReflTransGen c.IsParent a b) : c.component? b = none := by
  rcases ReflTransGen.cases_tail h with h | ⟨u, -, hu⟩
  · rwa [h]
  · exact hc.component?_of_isParent hu

theorem Refers.trans (hc : c.Lawful) {a b e : TypeHandle} (hab : c.Refers a b)
    (hbe : c.Refers b e) : c.Refers a e := by
  have ha := hab.contains_left
  induction hab generalizing e with
  | root =>
    rw [hc.eq_object_of_refers hbe]
    exact .root ha hc.contains_object
  | sameComponent hax hbx =>
    obtain ⟨-, -, rfl | ⟨hn, -⟩ | ⟨x, y, hbx', hey, h⟩⟩ := refers_iff.mp hbe
    · exact .root ha hc.contains_object
    · exact absurd hbx (not_hasComponent hn)
    · obtain rfl := Option.some.inj (hbx.symm.trans hbx')
      rcases h with rfl | ⟨hpx, hpy, h⟩
      · exact .sameComponent hax hey
      · exact .component hax hey hpx hpy h
  | component hax hby hpx hpy hxy ih =>
    obtain ⟨-, -, rfl | ⟨hn, -⟩ | ⟨y, z, hby', hez, h⟩⟩ := refers_iff.mp hbe
    · exact .root ha hc.contains_object
    · exact absurd hby (not_hasComponent hn)
    · obtain rfl := Option.some.inj (hby.symm.trans hby')
      rcases h with rfl | ⟨-, hpz, h⟩
      · exact .component hax hez hpx hpy hxy
      · exact .component hax hez hpx hpz (ih h hxy.contains_left)
  | climb _ _ hn h =>
    obtain ⟨-, he, rfl | ⟨-, h'⟩ | ⟨x, _, hx, -⟩⟩ := refers_iff.mp hbe
    · exact .root ha hc.contains_object
    · exact .climb ha he hn (h.trans h')
    · exact absurd hx (not_hasComponent (hc.component?_of_above hn h))

/-! ## Conversion by sides

A type is on the primitive or on the reference side; what a conversion comes to is told by
the sides of its two types. -/

section Sides

variable {a b : TypeHandle}

theorem Converts.left_ne_absent (h : c.Converts boxing a b) : a ≠ absent := by
  cases h with
  | null => decide
  | same ha _ => exact ha
  | widen | box => exact Primitive.handle_ne_absent _
  | refer ha => exact ha
  | unbox _ hw => exact Primitive.wrapper_ne_absent hw

theorem Converts.right_ne_absent (h : c.Converts boxing a b) : b ≠ absent := by
  cases h with
  | null hb => exact hb
  | same ha => exact ha
  | widen | unbox => exact Primitive.handle_ne_absent _
  | refer _ hb => exact hb
  | box _ _ hb => exact hb

/-- Nothing converts to the type of null. -/
theorem Converts.right_ne_null (hc : c.Lawful) (h : c.Converts boxing a b) : b ≠ .null := by
  rintro rfl
  generalize hb : TypeHandle.null = b at h
  cases h with
  | null _ hn => exact hn hb.symm
  | same _ hn => exact hn hb.symm
  | widen | unbox => exact Primitive.handle_ne_null _ hb.symm
  | refer _ _ hn _ _ h =>
    subst hb
    exact hn (hc.eq_null_of_refers h)
  | box _ hw _ _ h =>
    subst hb
    refine Primitive.wrapper_ne_null hw ?_
    rcases h with h | h
    · exact h
    · exact hc.eq_null_of_refers h

theorem converts_primitive_iff {p q : Primitive} :
    c.Converts boxing p.handle q.handle ↔ p = q ∨ p.widensTo q = true := by
  constructor
  · intro h
    generalize ha : p.handle = a, hb : q.handle = b at h
    cases h with
    | null => exact absurd ha p.handle_ne_null
    | same => exact .inl (Primitive.handle_injective (ha.trans hb.symm))
    | widen h =>
      obtain rfl := Primitive.handle_injective ha
      obtain rfl := Primitive.handle_injective hb
      exact .inr h
    | refer _ _ _ hp =>
      rw [← ha, Primitive.ofHandle?_handle] at hp
      cases hp
    | box _ _ _ hq =>
      rw [← hb, Primitive.ofHandle?_handle] at hq
      cases hq
    | unbox _ hw =>
      have hp := Primitive.ofHandle?_wrapper hw
      rw [← ha, Primitive.ofHandle?_handle] at hp
      cases hp
  · rintro (rfl | h)
    · exact .same p.handle_ne_absent p.handle_ne_null
    · exact .widen h

theorem Converts.of_primitive_reference {p : Primitive} (hc : c.Lawful)
    (hb : Primitive.ofHandle? b = none) (h : c.Converts boxing p.handle b) :
    boxing = true ∧ ∃ w, p.wrapper? = some w ∧ c.Refers w b := by
  generalize ha : p.handle = a at h
  cases h with
  | null => exact absurd ha p.handle_ne_null
  | same =>
    rw [← ha, Primitive.ofHandle?_handle] at hb
    cases hb
  | widen => simp at hb
  | refer _ _ _ hp =>
    rw [← ha, Primitive.ofHandle?_handle] at hp
    cases hp
  | box hboxing hw _ _ h =>
    obtain rfl := Primitive.handle_injective ha
    refine ⟨hboxing, _, hw, ?_⟩
    rcases h with rfl | h
    · exact .refl (hc.contains_wrapper hw)
    · exact h
  | unbox _ hw => simp at hb

theorem Converts.of_reference_primitive {q : Primitive} (ha : Primitive.ofHandle? a = none)
    (h : c.Converts boxing a q.handle) :
    boxing = true ∧ ∃ p, p.wrapper? = some a ∧ (p = q ∨ p.widensTo q = true) := by
  generalize hb : q.handle = b at h
  cases h with
  | null _ _ hp =>
    rw [← hb, Primitive.ofHandle?_handle] at hp
    cases hp
  | same =>
    rw [← hb, Primitive.ofHandle?_handle] at ha
    cases ha
  | widen => simp at ha
  | refer _ _ _ _ hq =>
    rw [← hb, Primitive.ofHandle?_handle] at hq
    cases hq
  | box => simp at ha
  | unbox hboxing hw h =>
    obtain rfl := Primitive.handle_injective hb
    exact ⟨hboxing, _, hw, h⟩

theorem Converts.of_reference (hn : a ≠ .null) (ha : Primitive.ofHandle? a = none)
    (hb : Primitive.ofHandle? b = none) (h : c.Converts boxing a b) : a = b ∨ c.Refers a b := by
  cases h with
  | null => exact absurd rfl hn
  | same => exact .inl rfl
  | widen => simp at ha
  | refer _ _ _ _ _ h => exact .inr h
  | box => simp at ha
  | unbox => simp at hb

/-- Between reference types boxing makes no difference. -/
theorem Converts.unboxed (ha : Primitive.ofHandle? a = none) (hb : Primitive.ofHandle? b = none)
    (h : c.Converts boxing a b) : c.Converts false a b := by
  cases h with
  | null hb hn hp hcon => exact .null hb hn hp hcon
  | same ha hn => exact .same ha hn
  | widen => simp at ha
  | refer ha hb hn hp hq h => exact .refer ha hb hn hp hq h
  | box => simp at ha
  | unbox => simp at hb

/-- What converts without boxing converts with it. -/
theorem Converts.boxed (h : c.Converts false a b) : c.Converts boxing a b := by
  cases h with
  | null hb hn hp hcon => exact .null hb hn hp hcon
  | same ha hn => exact .same ha hn
  | widen hw => exact .widen hw
  | refer ha hb hn hp hq h => exact .refer ha hb hn hp hq h
  | box hboxing => cases hboxing
  | unbox hboxing => cases hboxing

/-- A reference type that is no array type does not convert to array types, unless it is
that of null. -/
theorem Converts.component?_eq_none (hc : c.Lawful) (hn : a ≠ .null)
    (ha : Primitive.ofHandle? a = none) (hb : Primitive.ofHandle? b = none)
    (hx : c.component? a = none) (h : c.Converts boxing a b) : c.component? b = none := by
  rcases h.of_reference hn ha hb with rfl | h
  · exact hx
  obtain ⟨-, -, rfl | ⟨-, habove⟩ | ⟨x, _, hax, -⟩⟩ := refers_iff.mp h
  · exact hc.component?_object
  · exact hc.component?_of_above hx habove
  · exact absurd hax (not_hasComponent hx)

/-- What an array type converts to is no primitive type. -/
theorem Converts.ofHandle?_of_component? (hc : c.Lawful) {x : TypeHandle}
    (ha : Primitive.ofHandle? a = none) (hx : c.component? a = some x)
    (h : c.Converts boxing a b) : Primitive.ofHandle? b = none := by
  cases hb : Primitive.ofHandle? b with
  | none => rfl
  | some q =>
    obtain rfl := Primitive.eq_handle_of_ofHandle? hb
    obtain ⟨-, p, hw, -⟩ := h.of_reference_primitive ha
    rw [hc.component?_wrapper hw] at hx
    cases hx

end Sides

/-! ## Transitivity through reference types -/

section Through

variable {a b e : TypeHandle}

/-- Conversion from a reference type through another one: nothing more is needed. -/
theorem Converts.trans_of_references (hc : c.Lawful) (hna : a ≠ .null) (hnb : b ≠ .null)
    (ha : Primitive.ofHandle? a = none) (hb : Primitive.ofHandle? b = none)
    (hab : c.Converts boxing a b) (hbe : c.Converts boxing b e) : c.Converts boxing a e := by
  rcases hab.of_reference hna ha hb with rfl | hab'
  · exact hbe
  cases hpe : Primitive.ofHandle? e with
  | none =>
    rcases hbe.of_reference hnb hb hpe with rfl | hbe'
    · exact hab
    · exact .refer hab.left_ne_absent hbe.right_ne_absent hna ha hpe (hab'.trans hc hbe')
  | some q =>
    -- only a wrapper converts to a primitive type, and only itself refers to it
    obtain rfl := Primitive.eq_handle_of_ofHandle? hpe
    obtain ⟨-, p, hw, -⟩ := hbe.of_reference_primitive hb
    obtain rfl := hc.eq_wrapper_of_refers hw hab'
    exact hbe

/-- Conversion from a primitive type through a reference type that its wrapper refers to. -/
theorem Converts.trans_through_reference (hc : c.Lawful) {p : Primitive} (hnb : b ≠ .null)
    (hb : Primitive.ofHandle? b = none) (hpb : c.Converts boxing p.handle b)
    (hbe : c.Converts boxing b e) : c.Converts boxing p.handle e := by
  obtain ⟨hboxing, w, hw, hwb⟩ := hpb.of_primitive_reference hc hb
  cases hpe : Primitive.ofHandle? e with
  | none =>
    refine .box hboxing hw hbe.right_ne_absent hpe (.inr ?_)
    rcases hbe.of_reference hnb hb hpe with rfl | hbe'
    · exact hwb
    · exact hwb.trans hc hbe'
  | some r =>
    -- boxed and unboxed again: the wrapper on the way is that of `p`
    obtain rfl := Primitive.eq_handle_of_ofHandle? hpe
    obtain ⟨-, q, hq, hqr⟩ := hbe.of_reference_primitive hb
    obtain rfl := hc.eq_wrapper_of_refers hq hwb
    obtain rfl := Primitive.eq_of_wrapper hw hq
    exact converts_primitive_iff.mpr hqr

end Through

end Catalog

end BestFit
