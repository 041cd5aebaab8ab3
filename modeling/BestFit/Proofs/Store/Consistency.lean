import BestFit.Proofs.Store.Reachable

/-!
# What callers may rely on

The invariant of a store, told by the answers that the store gives and not by how it keeps
them. Types and constructors are numbered without gaps, whatever a declaration names is declared
before it, and constructors and the types that list them belong together. Main statement:
`Reachable.consistent`.
-/
namespace BestFit

open Relation (TransGen)

/-- Every type that a declaration names: those above it, the one around it and, for an array
type, its component. -/
def TypeDecl.links (d : TypeDecl) : List TypeHandle :=
  d.parents ++ d.enclosing.toList ++ d.component?.toList

namespace Catalog

/-- The declaration of `a` names `b`. -/
def Names (c : Catalog) (a b : TypeHandle) : Prop := ∃ d, c.decl? a = some d ∧ b ∈ d.links

/-- The declaration of `t` lists the constructor `k`. -/
def Lists (c : Catalog) (t : TypeHandle) (k : CtorHandle) : Prop :=
  ∃ d, c.decl? t = some d ∧ k ∈ d.ctors

theorem IsParent.names {c : Catalog} {a b : TypeHandle} (h : c.IsParent a b) : c.Names a b := by
  unfold IsParent parents at h
  split at h
  · next d hd => exact ⟨d, hd, List.mem_append_left _ (List.mem_append_left _ h)⟩
  · cases h

end Catalog

theorem Builtin.mem_handles_iff {t : TypeHandle} :
    t ∈ Builtin.handles ↔ 1 ≤ t.index ∧ t.index ≤ 21 := by
  rw [Builtin.handles_eq, List.mem_map]
  constructor
  · rintro ⟨i, hi, rfl⟩
    have hi := List.mem_range'_1.mp hi
    exact ⟨hi.1, Nat.le_of_lt_succ hi.2⟩
  · rintro ⟨hlow, hhigh⟩
    exact ⟨t.index, List.mem_range'_1.mpr ⟨hlow, by omega⟩, rfl⟩

theorem Builtin.decl?_isSome_iff {t : TypeHandle} :
    (Builtin.decl? t).isSome = true ↔ 1 ≤ t.index ∧ t.index ≤ 21 := by
  rw [← Builtin.mem_handles_iff, Builtin.decl?, TypeDecl.lookup, List.find?_isSome,
    Builtin.handles, List.mem_map]
  simp only [beq_iff_eq]

namespace Store

variable {ω π : Type} {s : Store ω π} {t u : TypeHandle}

/-- How the types and constructors that a store knows refer to each other. -/
structure Consistent (s : Store ω π) : Prop where
  /-- The types are the built-in ones and those added since, numbered in a row. -/
  types_iff : ∀ t, s.catalog.contains t = true ↔
    (1 ≤ t.index ∧ t.index ≤ 21) ∨
      (TypeHandle.firstDeclared ≤ t.index ∧ t.index < s.nextType.index)
  handle : ∀ t d, s.decl? t = some d → d.handle = t
  /-- What a declaration names was there before it. -/
  names : ∀ t u, s.catalog.Names t u → s.catalog.contains u = true ∧ u.index < t.index
  acyclic : ∀ t, ¬TransGen s.catalog.Names t t
  superclass : ∀ t u, s.catalog.superclass? t = some u →
    ∃ e, s.decl? u = some e ∧ e.shape = .classType ∧ e.modifiers.isFinal = false
  interfaces : ∀ t d, s.decl? t = some d → ∀ u ∈ d.interfaces,
    ∃ e, s.decl? u = some e ∧ e.shape = .interface
  /-- The constructors that types list are numbered in a row. -/
  ctors_iff : ∀ k, (∃ t, s.catalog.Lists t k) ↔ 1 ≤ k.index ∧ k.index < (s.nextCtor 0).index
  /-- No constructor is listed twice, by one type or by two. -/
  ctors_nodup : ∀ t d, s.decl? t = some d → d.ctors.Nodup
  ctors_disjoint : ∀ t u k, s.catalog.Lists t k → s.catalog.Lists u k → t = u
  resolves : ∀ t k, s.catalog.Lists t k → ∃ c, s.ctor? k = some c ∧ c.handle = k ∧ c.owner = t
  ctors_class : ∀ t d, s.decl? t = some d → d.ctors ≠ [] → d.shape = .classType
  signatures : ∀ t, (s.catalog.ctorsOf t).Pairwise fun j k => j.params ≠ k.params
  params : ∀ t, ∀ k ∈ s.catalog.ctorsOf t, ∀ p ∈ k.params,
    s.catalog.contains p = true ∧ p ≠ .null ∧ p ≠ .void
  variadic : ∀ t, ∀ k ∈ s.catalog.ctorsOf t, k.isVariadic = true →
    ∃ last x, k.lastParam? = some last ∧ s.catalog.component? last = some x

/-! ## Types -/

theorem contains_iff_index (s : Store ω π) (t : TypeHandle) :
    s.catalog.contains t = true ↔
      (1 ≤ t.index ∧ t.index ≤ 21) ∨
        (TypeHandle.firstDeclared ≤ t.index ∧ t.index < s.nextType.index) := by
  have hfirst : TypeHandle.firstDeclared = 100 := rfl
  have hnext : s.nextType.index = TypeHandle.firstDeclared + s.types.size := rfl
  show (s.decl? t).isSome = true ↔ _
  unfold decl?
  by_cases hlow : t.index < TypeHandle.firstDeclared
  · rw [if_pos hlow, Builtin.decl?_isSome_iff]
    omega
  · rw [if_neg hlow, isSome_getElem?]
    omega

namespace WellFormed

variable (hs : s.WellFormed)
include hs

/-- Links lead to declared types with smaller handles. -/
theorem of_names (h : s.catalog.Names t u) :
    s.catalog.contains u = true ∧ u.index < t.index := by
  obtain ⟨d, hd, hu⟩ := h
  have hd := hs.decls hd
  simp only [TypeDecl.links, TypeDecl.parents, List.mem_append, Option.mem_toList] at hu
  rcases hu with ((hu | hu) | hu) | hu
  · obtain ⟨hlt, e, he, -⟩ := hd.superclass u hu
    exact ⟨contains_iff.mpr ⟨e, he⟩, hlt⟩
  · obtain ⟨hlt, e, he, -⟩ := hd.interfaces u hu
    exact ⟨contains_iff.mpr ⟨e, he⟩, hlt⟩
  · obtain ⟨hlt, hu⟩ := hd.enclosing u hu
    exact ⟨hu, hlt⟩
  · cases hshape : d.shape <;> simp only [TypeDecl.component?, hshape, reduceCtorEq] at hu
    cases hu
    obtain ⟨hlt, hu⟩ := hd.component u hshape
    exact ⟨(canHold_iff.mp hu).2.2, hlt⟩

/-- A way along links leads to smaller and smaller handles. -/
theorem index_lt_of_transGen (h : TransGen s.catalog.Names t u) : u.index < t.index := by
  induction h with
  | single h => exact (hs.of_names h).2
  | tail _ h ih => exact (hs.of_names h).2.trans ih

theorem not_transGen_self (t : TypeHandle) : ¬TransGen s.catalog.Names t t :=
  fun h => Nat.lt_irrefl _ (hs.index_lt_of_transGen h)

/-! ## Constructors -/

theorem ctor?_of_lists {k : CtorHandle} (h : s.catalog.Lists t k) :
    ∃ c, s.ctor? k = some c ∧ c.handle = k ∧ c.owner = t := by
  obtain ⟨d, hd, hk⟩ := h
  obtain ⟨e, he, howner⟩ := (hs.decls hd).ctors k hk
  exact ⟨e.ctor, Option.map_eq_some_iff.mpr ⟨e, he, rfl⟩, (hs.entries he).handle, howner⟩

theorem eq_of_lists {k : CtorHandle} (ht : s.catalog.Lists t k) (hu : s.catalog.Lists u k) :
    t = u := by
  obtain ⟨c, hc, -, rfl⟩ := hs.ctor?_of_lists ht
  obtain ⟨c', hc', -, rfl⟩ := hs.ctor?_of_lists hu
  rw [Option.some.inj (hc.symm.trans hc')]

/-- What is stored is listed by its owner. -/
theorem exists_lists_iff (k : CtorHandle) :
    (∃ t, s.catalog.Lists t k) ↔ 1 ≤ k.index ∧ k.index < (s.nextCtor 0).index := by
  constructor
  · rintro ⟨t, d, hd, hk⟩
    obtain ⟨e, he, -⟩ := (hs.decls hd).ctors k hk
    refine ⟨?_, index_lt_nextCtor he⟩
    unfold entry? at he
    split at he
    · next hpresent => exact of_decide_eq_true hpresent
    · cases he
  · rintro ⟨hlow, hhigh⟩
    have hplace : k.index - CtorHandle.firstDeclared < s.ctors.size := by
      simp only [nextCtor, CtorHandle.firstDeclared] at hhigh ⊢
      omega
    have hentry : s.entry? k = some s.ctors[k.index - CtorHandle.firstDeclared] := by
      have hpresent : k.isPresent = true := decide_eq_true hlow
      unfold entry?
      rw [if_pos hpresent, Array.getElem?_eq_getElem hplace]
    obtain ⟨d, hd, hk⟩ := (hs.entries hentry).owner
    exact ⟨_, d, hd, hk⟩

theorem pairwise_params (t : TypeHandle) :
    (s.catalog.ctorsOf t).Pairwise fun j k => j.params ≠ k.params := by
  refine (hs.nodup_ctorsOf t).imp_of_mem fun hj hk hne hparams => ?_
  exact hne (hs.ctor_eq_of_params hj hk hparams)

end WellFormed

/-! ## All of it -/

/-- Every reachable store is consistent. -/
theorem Reachable.consistent (h : s.Reachable) : s.Consistent := by
  have hs := h.wellFormed
  exact {
    types_iff := s.contains_iff_index
    handle := fun t d hd => (hs.decls hd).handle
    names := fun t u hu => hs.of_names hu
    acyclic := hs.not_transGen_self
    superclass := by
      intro t u hu
      obtain ⟨d, hd, hdu⟩ := Option.bind_eq_some_iff.mp hu
      exact ((hs.decls hd).superclass u hdu).2
    interfaces := fun t d hd u hu => ((hs.decls hd).interfaces u hu).2
    ctors_iff := hs.exists_lists_iff
    ctors_nodup := fun t d hd => (hs.decls hd).ctors_nodup
    ctors_disjoint := fun t u k ht hu => hs.eq_of_lists ht hu
    resolves := fun t k hk => hs.ctor?_of_lists hk
    ctors_class := fun t d hd => (hs.decls hd).ctors_class
    signatures := hs.pairwise_params
    params := by
      intro t k hk p hp
      obtain ⟨hn, hv, hp⟩ := canHold_iff.mp (hs.canHold_params (hs.of_mem_ctorsOf hk).1 hp)
      exact ⟨hp, hn, hv⟩
    variadic := by
      intro t k hk hv
      obtain ⟨e, he, rfl⟩ := Option.map_eq_some_iff.mp (hs.of_mem_ctorsOf hk).1
      obtain ⟨x, hx⟩ := (hs.entries he).variadic hv
      obtain ⟨last, hlast, hcomp⟩ := Option.bind_eq_some_iff.mp hx
      exact ⟨last, x, hlast, hcomp⟩ }

/-- Kennels with gates: a gate is declared inside the class of kennels and is something lockable.
A second class of dogs was refused. -/
def gatedKennels : Store Journal Nat :=
  kennels
    |>.apply (.declare
        { name := "Lockable", sort := .interface,
          modifiers := { isPublic := true, isAbstract := true } })
    |>.apply (.declare
        { name := "Gate", sort := .classType, superclass := some .object,
          interfaces := [⟨104⟩], enclosing := some ⟨103⟩,
          ctors :=
            [ { params := [], body := notingBody },
              { params := [⟨103⟩], body := notingBody } ] })
    |>.apply (.declare { name := "Dog", sort := .classType, superclass := some .object })

theorem gatedKennels_reachable : gatedKennels.Reachable :=
  kennels_ownReachable.reachable.apply _ |>.apply _ |>.apply _

/-- Six types of its own, one of them an array type, and five constructors. -/
theorem consistent_gatedKennels :
    gatedKennels.Reachable ∧ gatedKennels.Consistent ∧
    (∀ t, gatedKennels.catalog.contains t = true ↔
      (1 ≤ t.index ∧ t.index ≤ 21) ∨ (100 ≤ t.index ∧ t.index < 106)) ∧
    ∀ k, (∃ t, gatedKennels.catalog.Lists t k) ↔ 1 ≤ k.index ∧ k.index < 6 := by
  have hconsistent := gatedKennels_reachable.consistent
  exact ⟨gatedKennels_reachable, hconsistent, hconsistent.types_iff, hconsistent.ctors_iff⟩

end Store

end BestFit
