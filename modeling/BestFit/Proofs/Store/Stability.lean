import BestFit.Proofs.Store.Reachable

/-!
# What a growing store keeps answering

Everything a store says about a declared type it says ever after: the declaration, and as
the links of a well-formed store lead to declared types only, also what is derived by
following them. `Grows.converts_eq` says so of conversion, `Grows.exposes_eq` of exposure.
-/
namespace BestFit.Store

open Relation (ReflTransGen)
open Catalog (Refers Converts IsParent HasComponent)

variable {ω π : Type} {s s' : Store ω π} {boxing : Bool}

namespace Grows

section Declared

variable (h : s.Grows s') {t : TypeHandle} (ht : s.catalog.contains t = true)
include h ht

theorem decl?_eq : s'.decl? t = s.decl? t := by
  obtain ⟨d, hd⟩ := contains_iff.mp ht
  rw [hd, h.decl? hd]

theorem parents_eq : s'.catalog.parents t = s.catalog.parents t := by
  simp only [Catalog.parents, catalog_decl?, h.decl?_eq ht]

theorem component?_eq : s'.catalog.component? t = s.catalog.component? t := by
  simp only [Catalog.component?, catalog_decl?, h.decl?_eq ht]

theorem nameOf_eq : s'.catalog.nameOf t = s.catalog.nameOf t := by
  simp only [Catalog.nameOf, catalog_decl?, h.decl?_eq ht]

theorem isPublic_eq : s'.catalog.isPublic t = s.catalog.isPublic t := by
  simp only [Catalog.isPublic, catalog_decl?, h.decl?_eq ht]

theorem enclosing?_eq : s'.catalog.enclosing? t = s.catalog.enclosing? t := by
  simp only [Catalog.enclosing?, catalog_decl?, h.decl?_eq ht]

end Declared

/-! ## Conversion -/

variable (h : s.Grows s')
include h

theorem isParent {a b : TypeHandle} (hab : s.catalog.IsParent a b) :
    s'.catalog.IsParent a b := by
  rw [IsParent, h.parents_eq hab.contains]
  exact hab

theorem refers {a b : TypeHandle} (hab : s.catalog.Refers a b) : s'.catalog.Refers a b := by
  induction hab with
  | root ha ho => exact .root (h.contains ha) (h.contains ho)
  | sameComponent ha hb => exact .sameComponent (h.component? ha) (h.component? hb)
  | component ha hb hx hy _ ih =>
    exact .component (h.component? ha) (h.component? hb) hx hy ih
  | climb ha hb hn hup =>
    refine .climb (h.contains ha) (h.contains hb) ?_
      (ReflTransGen.mono (fun _ _ => h.isParent) _ _ hup)
    rw [h.component?_eq ha]
    exact hn

theorem converts_rule {a b : TypeHandle} (hab : s.catalog.Converts boxing a b) :
    s'.catalog.Converts boxing a b := by
  cases hab with
  | null hb hn hp hc => exact .null hb hn hp (h.contains hc)
  | same ha hn => exact .same ha hn
  | widen hw => exact .widen hw
  | refer ha hb hn hp hq hr => exact .refer ha hb hn hp hq (h.refers hr)
  | box hboxing hw hb hq hr => exact .box hboxing hw hb hq (hr.imp_right h.refers)
  | unbox hboxing hw hr => exact .unbox hboxing hw hr

/-- What converts now converts ever after. -/
theorem converts (hs : s.WellFormed) (hs' : s'.WellFormed) {a b : TypeHandle}
    (hab : s.catalog.converts boxing a b = true) : s'.catalog.converts boxing a b = true := by
  rw [Catalog.converts_iff hs.lawful.finite] at hab
  rw [Catalog.converts_iff hs'.lawful.finite]
  exact h.converts_rule hab

end Grows

/-- The absent handle converts to nothing. -/
theorem WellFormed.ne_absent_of_converts (hs : s.WellFormed) {a b : TypeHandle}
    (h : s.catalog.converts boxing a b = true) : a ≠ .absent :=
  ((Catalog.converts_iff hs.lawful.finite).mp h).left_ne_absent

/-- Components are what arrays can hold. -/
theorem WellFormed.canHold_component (hs : s.WellFormed) {t x : TypeHandle}
    (ht : s.catalog.component? t = some x) : s.canHold x = true := by
  obtain ⟨d, hd, hshape⟩ := component?_eq_some.mp ht
  exact ((hs.decls hd).component x hshape).2

theorem WellFormed.contains_component (hs : s.WellFormed) {t x : TypeHandle}
    (ht : s.catalog.component? t = some x) : s.catalog.contains x = true :=
  (canHold_iff.mp (hs.canHold_component ht)).2.2

/-- A way up from a declared type, found later, was there before. -/
theorem Grows.above_of_later (h : s.Grows s') (hs : s.WellFormed) {a b : TypeHandle}
    (ha : s.catalog.contains a = true) (hab : ReflTransGen s'.catalog.IsParent a b) :
    ReflTransGen s.catalog.IsParent a b := by
  induction hab using ReflTransGen.head_induction_on with
  | refl => exact .refl
  | head hstep _ ih =>
    rw [IsParent, h.parents_eq ha] at hstep
    exact .head hstep (ih (hs.lawful.contains_of_isParent hstep))

/-- Reference conversion between declared types, found later, was there before. -/
theorem Grows.refers_of_later (h : s.Grows s') (hs : s.WellFormed) {a b : TypeHandle}
    (hab : s'.catalog.Refers a b) (ha : s.catalog.contains a = true)
    (hb : s.catalog.contains b = true) : s.catalog.Refers a b := by
  induction hab with
  | root => exact .root ha hb
  | sameComponent hax hbx =>
    rw [HasComponent, h.component?_eq ha] at hax
    rw [HasComponent, h.component?_eq hb] at hbx
    exact .sameComponent hax hbx
  | component hax hby hx hy _ ih =>
    rw [HasComponent, h.component?_eq ha] at hax
    rw [HasComponent, h.component?_eq hb] at hby
    exact .component hax hby hx hy (ih (hs.contains_component hax) (hs.contains_component hby))
  | climb _ _ hn hup =>
    rw [h.component?_eq ha] at hn
    exact .climb ha hb hn (h.above_of_later hs ha hup)

/-- Conversion between declared types is settled. -/
theorem Grows.converts_eq (h : s.Grows s') (hs : s.WellFormed) (hs' : s'.WellFormed)
    {a b : TypeHandle} (ha : s.catalog.contains a = true) (hb : s.catalog.contains b = true) :
    s'.catalog.converts boxing a b = s.catalog.converts boxing a b := by
  rw [Bool.eq_iff_iff]
  refine ⟨fun hab => ?_, h.converts hs hs'⟩
  rw [Catalog.converts_iff hs'.lawful.finite] at hab
  rw [Catalog.converts_iff hs.lawful.finite]
  cases hab with
  | null hab hn hp _ => exact .null hab hn hp hb
  | same hab hn => exact .same hab hn
  | widen hw => exact .widen hw
  | refer hpa hpb hn hp hq hr => exact .refer hpa hpb hn hp hq (h.refers_of_later hs hr ha hb)
  | box hboxing hw hpb hq hr =>
    have hdecl := hs.lawful.contains_wrapper hw
    exact .box hboxing hw hpb hq (hr.imp_right fun hr => h.refers_of_later hs hr hdecl hb)
  | unbox hboxing hw hr => exact .unbox hboxing hw hr

/-! ## Exposure -/

/-- Exposure follows the types around a type, and these are declared. -/
theorem Grows.exposesWithin_eq (h : s.Grows s') (hs : s.WellFormed) {t : TypeHandle}
    (ht : s.catalog.contains t = true) (n : Nat) :
    s'.catalog.exposesWithin n t = s.catalog.exposesWithin n t := by
  induction n generalizing t with
  | zero => rfl
  | succ n ih =>
    simp only [Catalog.exposesWithin, h.isPublic_eq ht, h.enclosing?_eq ht]
    cases he : s.catalog.enclosing? t with
    | none => rfl
    | some outer =>
      obtain ⟨d, hd, hdo⟩ := Option.bind_eq_some_iff.mp he
      simp only [ih ((hs.decls hd).enclosing outer hdo).2]

theorem Grows.exposes_eq (h : s.Grows s') (hs : s.WellFormed) {k : Ctor}
    (ht : s.catalog.contains k.owner = true) :
    s'.catalog.exposes k = s.catalog.exposes k := by
  rw [Catalog.exposes, Catalog.exposes, Catalog.exposesType, Catalog.exposesType,
    h.exposesWithin_eq hs ht]

end BestFit.Store
