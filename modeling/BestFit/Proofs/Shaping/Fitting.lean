import BestFit.Proofs.Conversion.Interfaces
import BestFit.Proofs.Selection.Specificity
import BestFit.Proofs.Shaping.Gathering

/-!
# Acceptance of what fits

Fitting is decided on types, acceptance on data. The two agree on data that present their
types: where the type converts, the datum is accepted (`Presents.exists_accept`), in lists too
(`exists_acceptAll`).
-/
namespace BestFit.Store

variable {ω π : Type} {s s' : Store ω π} {a : Datum π} {t u x last : TypeHandle} {boxing : Bool}

/-! ## Presenting a type -/

/-- A declared class that boxes no primitive type. -/
def IsPlainClass (s : Store ω π) (t : TypeHandle) : Prop :=
  (∃ d, s.decl? t = some d ∧ d.shape = .classType) ∧ Primitive.ofWrapper? t = none

/-- Whether a datum is no object, or an instance of a class that boxes nothing. Unboxed data
have types that box something; only they may have. -/
def Plain (s : Store ω π) (a : Datum π) : Prop := ∀ i, a = .object i → s.IsPlainClass i.type

/-- A datum that has a type, and shows by it whether it is unboxed. -/
structure Presents (s : Store ω π) (a : Datum π) (t : TypeHandle) : Prop where
  type : s.HasType a t
  plain : s.Plain a

theorem IsPlainClass.hasShape (h : s.IsPlainClass t) : s.HasShape t .classType := h.1

theorem IsPlainClass.mono (h : s.Grows s') (ht : s.IsPlainClass t) : s'.IsPlainClass t :=
  ⟨ht.hasShape.mono h, ht.2⟩

theorem Plain.mono (h : s.Grows s') (ha : s.Plain a) : s'.Plain a :=
  fun i hi => (ha i hi).mono h

theorem Presents.mono (h : s.Grows s') (ha : s.Presents a t) : s'.Presents a t :=
  ⟨ha.type.mono h, ha.plain.mono h⟩

theorem Presents.null : s.Presents (.null : Datum π) .null :=
  ⟨.null, fun i hi => by cases hi⟩

theorem Presents.array {items : List (Datum π)} (h : s.catalog.component? t = some x) :
    s.Presents (.array x items) t :=
  ⟨.array h, fun i hi => by cases hi⟩

namespace Presents

variable (ha : s.Presents a u)
include ha

/-- Unboxed data have the types of boxed ones, so no datum presents a primitive type. -/
theorem ofHandle? : Primitive.ofHandle? u = none :=
  ha.type.ofHandle? fun i hi => ((ha.plain i hi).hasShape.reference (.inr rfl)).2.2

variable (hs : s.WellFormed)
include hs

/-- A datum that presents a wrapper is unboxed. -/
theorem primitive?_of_wrapper {p : Primitive} (hw : p.wrapper? = some u) :
    a.primitive? = some p :=
  ha.type.primitive?_of_wrapper hs hw fun i hi => (ha.plain i hi).2

/-- Only null and arrays present types that convert to an array type. -/
theorem null_or_array (hx : s.catalog.component? t = some x)
    (h : s.catalog.converts boxing u t = true) :
    a = .null ∨ ∃ y items, a = .array y items ∧ s.catalog.component? u = some y := by
  rw [Catalog.converts_iff hs.lawful.finite] at h
  have hu := ha.ofHandle?
  -- a type that is neither null's nor an array type does not convert to `t`
  have hno : u ≠ .null → s.catalog.component? u ≠ none := by
    intro hn hnone
    rw [h.component?_eq_none hs.lawful hn hu (ofHandle?_of_component? hx) hnone] at hx
    cases hx
  cases ha.type with
  | null => exact .inl rfl
  | array hy => exact .inr ⟨_, _, rfl, hy⟩
  | boxed _ hw =>
    exact absurd (hs.lawful.component?_wrapper hw) (hno (Primitive.wrapper_ne_null hw))
  | string => exact absurd hs.lawful.component?_string (hno (by decide))
  | object i =>
    have hclass := (ha.plain i rfl).hasShape
    exact absurd (hclass.component? (.inr rfl)) (hno (hclass.reference (.inr rfl)).2.1)

/-! ## Acceptance -/

/-- A datum is accepted wherever its type converts, and nothing is asked of the store. -/
theorem exists_accept (index : Nat) (h : s.catalog.converts boxing u t = true) :
    ∃ b, (source.accept index t a).runFrom s = (.ok b, s) := by
  have hconv := (Catalog.converts_iff hs.lawful.finite).mp h
  cases ht : Primitive.ofHandle? t with
  | some q =>
    -- only a wrapper converts to a primitive type, so the datum is unboxed and widens
    obtain rfl := Primitive.eq_handle_of_ofHandle? ht
    obtain ⟨-, p, hw, hpq⟩ := hconv.of_reference_primitive ha.ofHandle?
    obtain ⟨b, hb⟩ := Option.isSome_iff_exists.mp
      (Datum.widenTo_isSome_iff.mpr ⟨p, ha.primitive?_of_wrapper hs hw, hpq⟩)
    rw [source.runFrom_accept_primitive s index a ht, hb]
    exact ⟨b, rfl⟩
  | none =>
    rw [source.runFrom_accept_reference s index a ht, ha.type.run hs]
    by_cases hn : a.isNull = true
    · exact ⟨a, by rw [if_pos hn]⟩
    · have hunboxed : s.catalog.converts false u t = true :=
        (Catalog.converts_iff hs.lawful.finite).mpr (hconv.unboxed ha.ofHandle? ht)
      refine ⟨a, ?_⟩
      rw [if_neg hn]
      show ((if s.catalog.converts false u t then .ok a else .error _ : Except _ _), s) = _
      rw [if_pos hunboxed]

/-- An array is refused where its type does not convert. -/
theorem accept_array {y : TypeHandle} {items : List (Datum π)} (hy : a = .array y items)
    (index : Nat) (h : s.catalog.converts false u t = false) :
    (source.accept index t a).runFrom s =
      (.error (.unconvertible index (s.catalog.nameOf t) (s.catalog.nameOf u)), s) := by
  subst hy
  cases ht : Primitive.ofHandle? t with
  | some q =>
    rw [source.runFrom_accept_primitive s index _ ht, ha.type.run hs]
    rfl
  | none =>
    rw [source.runFrom_accept_reference s index _ ht, ha.type.run hs]
    show ((if s.catalog.converts false u t then .ok _ else .error _ : Except _ _), s) = _
    rw [h]
    rfl

end Presents

section Lists

variable {args : List (Datum π)} {request ts : List TypeHandle}

theorem forall₂_presents_mono (h : s.Grows s') (hargs : List.Forall₂ s.Presents args request) :
    List.Forall₂ s'.Presents args request := hargs.imp fun _ _ ha => ha.mono h

/-- What converts to something was answered as a type, not as the lack of one. -/
theorem presents_of_answered (hs : s.WellFormed) (hargs : List.Forall₂ s.Answered args request)
    (hplain : ∀ a ∈ args, s.Plain a) (h : s.catalog.convertsAll boxing request ts = true) :
    List.Forall₂ s.Presents args request := by
  induction hargs generalizing ts with
  | nil => exact .nil
  | @cons a u args request ha _ ih =>
    obtain ⟨t, ts, rfl⟩ :=
      List.exists_cons_of_length_eq_add_one (Catalog.convertsAll_length h).symm
    rw [Catalog.convertsAll_cons, Bool.and_eq_true] at h
    obtain ⟨hfirst, hrest⟩ := List.forall_mem_cons.mp hplain
    exact .cons ⟨ha.resolve_right (hs.ne_absent_of_converts h.1), hfirst⟩ (ih hrest h.2)

/-- Data are accepted at a parameter list that their types convert to. -/
theorem exists_acceptAll (hs : s.WellFormed) (index : Nat)
    (hargs : List.Forall₂ s.Presents args request)
    (h : s.catalog.convertsAll boxing request ts = true) :
    ∃ l, (source.acceptAll index ts args).runFrom s = (.ok l, s) := by
  induction hargs generalizing index ts with
  | nil => exact ⟨[], by cases ts <;> rfl⟩
  | cons ha _ ih =>
    obtain ⟨t, ts, rfl⟩ :=
      List.exists_cons_of_length_eq_add_one (Catalog.convertsAll_length h).symm
    rw [Catalog.convertsAll_cons, Bool.and_eq_true] at h
    obtain ⟨b, hb⟩ := ha.exists_accept hs index h.1
    obtain ⟨l, hl⟩ := ih (index + 1) h.2
    refine ⟨b :: l, ?_⟩
    rw [TypeSource.acceptAll_cons]
    exact Failable.runFrom_bind_eq_ok.mpr ⟨b, s, hb, Failable.runFrom_bind_eq_ok.mpr
      ⟨l, s, hl, rfl⟩⟩

end Lists

end BestFit.Store
