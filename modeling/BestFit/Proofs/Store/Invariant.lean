import BestFit.Proofs.Conversion.Hierarchy
import BestFit.Proofs.Store.Growth

/-!
# The invariant of a store

`WellFormed` says how the declarations and constructors of a store refer to each other:
every link leads to something stored under a smaller handle, constructors and their owners
name each other, and there is one array type over a component at most. It holds of the
store with nothing but the built-in types, and every operation keeps it. A well-formed
store has a lawful catalog (`WellFormed.lawful`).
-/
namespace BestFit

/-- The built-in types refer to nothing but smaller classes open to extension. -/
theorem Builtin.decls_links : ∀ d ∈ Builtin.decls,
    d.handle.index < TypeHandle.firstDeclared ∧ d.interfaces = [] ∧ d.enclosing = none ∧
    d.ctors = [] ∧ d.component? = none ∧
    d.superclass.all (fun u => u.index < d.handle.index && u.index < TypeHandle.firstDeclared &&
      (Builtin.decl? u).any fun e => e.shape == .classType && !e.modifiers.isFinal) = true := by
  decide

theorem Builtin.mem_decls {t : TypeHandle} {d : TypeDecl} (h : Builtin.decl? t = some d) :
    d ∈ Builtin.decls := by
  unfold Builtin.decl? TypeDecl.lookup at h
  exact List.mem_of_find?_eq_some h

namespace Store

variable {ω π : Type} {s s' : Store ω π}

/-- What holds of the declaration stored under a handle. -/
structure Grounded (s : Store ω π) (t : TypeHandle) (d : TypeDecl) : Prop where
  handle : d.handle = t
  superclass : ∀ u, d.superclass = some u → u.index < t.index ∧
    ∃ e, s.decl? u = some e ∧ e.shape = .classType ∧ e.modifiers.isFinal = false
  interfaces : ∀ u ∈ d.interfaces, u.index < t.index ∧
    ∃ e, s.decl? u = some e ∧ e.shape = .interface
  enclosing : ∀ u, d.enclosing = some u → u.index < t.index ∧ s.catalog.contains u = true
  component : ∀ x, d.shape = .array x → x.index < t.index ∧ s.canHold x = true
  shape : TypeHandle.firstDeclared ≤ t.index → d.shape ≠ .null ∧ ∀ p, d.shape ≠ .primitive p
  ctors_class : d.ctors ≠ [] → d.shape = .classType
  ctors_nodup : d.ctors.Nodup
  ctors : ∀ k ∈ d.ctors, ∃ e, s.entry? k = some e ∧ e.ctor.owner = t
  signatures : ∀ j ∈ d.ctors, ∀ k ∈ d.ctors, ∀ e f, s.entry? j = some e → s.entry? k = some f →
    e.ctor.params = f.ctor.params → j = k

/-- What holds of the constructor stored under a handle. -/
structure Housed (s : Store ω π) (k : CtorHandle) (e : StoredCtor ω π) : Prop where
  handle : e.ctor.handle = k
  owner : ∃ d, s.decl? e.ctor.owner = some d ∧ k ∈ d.ctors
  params : ∀ p ∈ e.ctor.params, s.canHold p = true
  variadic : e.ctor.isVariadic = true →
    ∃ x, e.ctor.lastParam?.bind s.catalog.component? = some x

/-- What holds of a store that came about by its operations. -/
structure WellFormed (s : Store ω π) : Prop where
  decls : ∀ {t d}, s.decl? t = some d → s.Grounded t d
  entries : ∀ {k e}, s.entry? k = some e → s.Housed k e
  arrays : ∀ {t u x}, s.catalog.component? t = some x → s.catalog.component? u = some x → t = u
  unlocked : ∀ {k}, k ∈ s.unlocked → ∃ e, s.entry? k = some e

/-! ## What was stored stays in order -/

theorem Grounded.mono {t : TypeHandle} {d : TypeDecl} (h : s.Grounded t d)
    (hs : s.Grows s') : s'.Grounded t d where
  handle := h.handle
  superclass u hu := by
    obtain ⟨hlt, e, he, hshape⟩ := h.superclass u hu
    exact ⟨hlt, e, hs.decl? he, hshape⟩
  interfaces u hu := by
    obtain ⟨hlt, e, he, hshape⟩ := h.interfaces u hu
    exact ⟨hlt, e, hs.decl? he, hshape⟩
  enclosing u hu := (h.enclosing u hu).imp_right hs.contains
  component x hx := (h.component x hx).imp_right hs.canHold
  shape := h.shape
  ctors_class := h.ctors_class
  ctors_nodup := h.ctors_nodup
  ctors k hk := by
    obtain ⟨e, he, ho⟩ := h.ctors k hk
    exact ⟨e, hs.entry? he, ho⟩
  signatures j hj k hk e f he hf hp := by
    obtain ⟨e₀, he₀, -⟩ := h.ctors j hj
    obtain ⟨f₀, hf₀, -⟩ := h.ctors k hk
    obtain rfl := Option.some.inj ((hs.entry? he₀).symm.trans he)
    obtain rfl := Option.some.inj ((hs.entry? hf₀).symm.trans hf)
    exact h.signatures j hj k hk _ _ he₀ hf₀ hp

theorem Housed.mono {k : CtorHandle} {e : StoredCtor ω π} (h : s.Housed k e)
    (hs : s.Grows s') : s'.Housed k e where
  handle := h.handle
  owner := by
    obtain ⟨d, hd, hk⟩ := h.owner
    exact ⟨d, hs.decl? hd, hk⟩
  params p hp := hs.canHold (h.params p hp)
  variadic hv := by
    obtain ⟨x, hx⟩ := h.variadic hv
    obtain ⟨last, hlast, hcomp⟩ := Option.bind_eq_some_iff.mp hx
    exact ⟨x, Option.bind_eq_some_iff.mpr ⟨last, hlast, hs.component? hcomp⟩⟩

/-! ## The built-in types -/

theorem decl?_builtin (s : Store ω π) {t : TypeHandle}
    (h : t.index < TypeHandle.firstDeclared) : s.decl? t = Builtin.decl? t := by
  rw [decl?, if_pos h]

theorem ne_absent_of_contains {t : TypeHandle} (h : s.catalog.contains t = true) :
    t ≠ .absent := by
  rintro rfl
  obtain ⟨d, hd⟩ := contains_iff.mp h
  rw [s.decl?_builtin (by decide)] at hd
  cases hd

theorem Grounded.builtin (s : Store ω π) {t : TypeHandle} {d : TypeDecl}
    (h : Builtin.decl? t = some d) : s.Grounded t d := by
  obtain ⟨hlow, hint, henc, hctors, hcomp, hsup⟩ :=
    Builtin.decls_links d (Builtin.mem_decls h)
  obtain rfl := TypeDecl.handle_of_lookup h
  exact {
    handle := rfl
    superclass := by
      intro u hu
      simp only [hu, Option.all_some, Bool.and_eq_true, decide_eq_true_eq] at hsup
      obtain ⟨⟨hlt, hlow⟩, he⟩ := hsup
      obtain ⟨e, he, hshape⟩ := (Option.any_eq_true _ _).mp he
      simp only [Bool.and_eq_true, beq_iff_eq, Bool.not_eq_true'] at hshape
      exact ⟨hlt, e, (s.decl?_builtin hlow).trans he, hshape⟩
    interfaces := by simp [hint]
    enclosing := by simp [henc]
    component := by
      intro x hx
      simp [TypeDecl.component?, hx] at hcomp
    shape := fun h => absurd h (Nat.not_le.mpr hlow)
    ctors_class := fun h => absurd hctors h
    ctors_nodup := by simp [hctors]
    ctors := by simp [hctors]
    signatures := by simp [hctors] }

/-- A built-in type is no array type. -/
theorem firstDeclared_le_of_component? {t x : TypeHandle}
    (h : s.catalog.component? t = some x) : TypeHandle.firstDeclared ≤ t.index := by
  obtain ⟨d, hd, hs⟩ := component?_eq_some.mp h
  by_contra hlow
  rw [s.decl?_builtin (by omega)] at hd
  obtain ⟨-, -, -, -, hcomp, -⟩ := Builtin.decls_links d (Builtin.mem_decls hd)
  simp [TypeDecl.component?, hs] at hcomp

theorem WellFormed.initial (serial : Nat) (world : ω) :
    ({ serial, world } : Store ω π).WellFormed where
  decls {t d} h := by
    unfold Store.decl? at h
    split at h
    · exact .builtin _ h
    · simp at h
  entries {k e} h := by
    unfold Store.entry? at h
    split at h <;> simp at h
  arrays {t u x} h := by
    have hlow := firstDeclared_le_of_component? h
    obtain ⟨d, hd, -⟩ := component?_eq_some.mp h
    rw [Store.decl?, if_neg (by omega)] at hd
    simp at hd
  unlocked {k} h := by simp at h

/-! ## Array types are interned -/

/-- The array type found for a component has that component. -/
theorem WellFormed.component?_of_array? (hs : s.WellFormed) {x t : TypeHandle}
    (h : s.array? x = some t) : s.catalog.component? t = some x := by
  obtain ⟨d, hd, rfl⟩ := Option.map_eq_some_iff.mp h
  obtain ⟨i, hi, rfl⟩ := Array.mem_iff_getElem.mp (Array.mem_of_find?_eq_some hd)
  have hcomp : s.types[i].component? = some x := by simpa using Array.find?_some hd
  have hlow : ¬TypeHandle.firstDeclared + i < TypeHandle.firstDeclared := by omega
  have hdecl : s.decl? ⟨TypeHandle.firstDeclared + i⟩ = some s.types[i] := by
    simp [decl?, hlow, hi]
  rw [(hs.decls hdecl).handle]
  simp [Catalog.component?, hdecl, hcomp]

theorem component?_ne_of_array? {x : TypeHandle} (h : s.array? x = none) (t : TypeHandle) :
    s.catalog.component? t ≠ some x := by
  intro ht
  have hlow := firstDeclared_le_of_component? ht
  obtain ⟨d, hd, hs⟩ := component?_eq_some.mp ht
  rw [decl?, if_neg (by omega)] at hd
  have hnone := Array.find?_eq_none.mp (Option.map_eq_none_iff.mp h) d
    (Array.mem_of_getElem? hd)
  simp [TypeDecl.component?, hs] at hnone

/-- An array type is the one found for its component. -/
theorem WellFormed.array?_eq_some (hs : s.WellFormed) {x t : TypeHandle} :
    s.array? x = some t ↔ s.catalog.component? t = some x := by
  refine ⟨hs.component?_of_array?, fun h => ?_⟩
  cases ha : s.array? x with
  | none => exact absurd h (component?_ne_of_array? ha t)
  | some u => rw [hs.arrays (hs.component?_of_array? ha) h]

/-! ## The operations keep the invariant -/

theorem contains_object (s : Store ω π) : s.catalog.contains .object = true :=
  contains_iff.mpr ⟨_, s.decl?_builtin (by decide)⟩

/-- What a store with one more type has as array types. -/
theorem component?_push {added : TypeDecl} {t x : TypeHandle}
    (h : Catalog.component? (catalog { s with types := s.types.push added }) t = some x) :
    (t = s.nextType ∧ added.shape = .array x) ∨ s.catalog.component? t = some x := by
  obtain ⟨d, hd, hshape⟩ := component?_eq_some.mp h
  rw [decl?_push] at hd
  by_cases ht : t = s.nextType
  · rw [if_pos ht] at hd
    cases hd
    exact .inl ⟨ht, hshape⟩
  · rw [if_neg ht] at hd
    exact .inr (component?_eq_some.mpr ⟨d, hd, hshape⟩)

theorem Grounded.arrayDecl (s : Store ω π) {x : TypeHandle} {d : TypeDecl}
    (hx : s.canHold x = true) : s.Grounded s.nextType (s.arrayDecl x d) where
  handle := rfl
  superclass := by
    rintro _ ⟨⟩
    have ho := s.decl?_builtin (t := .object) (by decide)
    exact ⟨index_lt_nextType ho, _, ho, rfl, rfl⟩
  interfaces := by simp [Store.arrayDecl, TypeDecl.arrayOver]
  enclosing := by simp [Store.arrayDecl, TypeDecl.arrayOver]
  component := by
    rintro _ ⟨⟩
    obtain ⟨e, he⟩ := contains_iff.mp (canHold_iff.mp hx).2.2
    exact ⟨index_lt_nextType he, hx⟩
  shape := by simp [Store.arrayDecl, TypeDecl.arrayOver]
  ctors_class := by simp [Store.arrayDecl, TypeDecl.arrayOver]
  ctors_nodup := by simp [Store.arrayDecl, TypeDecl.arrayOver]
  ctors := by simp [Store.arrayDecl, TypeDecl.arrayOver]
  signatures := by simp [Store.arrayDecl, TypeDecl.arrayOver]

theorem WellFormed.pushArray (hs : s.WellFormed) {x : TypeHandle} {d : TypeDecl}
    (hx : s.canHold x = true) (hnone : s.array? x = none) :
    WellFormed { s with types := s.types.push (s.arrayDecl x d) } where
  decls {t e} he := by
    rw [decl?_push] at he
    by_cases ht : t = s.nextType
    · rw [if_pos ht] at he
      cases he
      subst ht
      exact (Grounded.arrayDecl s hx).mono (.pushType s _)
    · rw [if_neg ht] at he
      exact (hs.decls he).mono (.pushType s _)
  entries he := (hs.entries he).mono (.pushType s _)
  arrays {t u y} ht hu := by
    -- the new type is the first over its component
    rcases component?_push ht with ⟨rfl, hty⟩ | ht <;>
      rcases component?_push hu with ⟨rfl, huy⟩ | hu
    · rfl
    · cases hty
      exact absurd hu (component?_ne_of_array? hnone u)
    · cases huy
      exact absurd ht (component?_ne_of_array? hnone t)
    · exact hs.arrays ht hu
  unlocked := hs.unlocked

theorem WellFormed.arrayOf (hs : s.WellFormed) (x : TypeHandle) :
    ((Store.arrayOf x).run s).2.WellFormed := by
  obtain ⟨_, -, h⟩ | ⟨hnone, d, -, hx, h⟩ | ⟨-, -, h⟩ := s.arrayOf_cases x <;> rw [h]
  · exact hs
  · exact hs.pushArray hx hnone
  · exact hs

/-- The constructors of a definition get handles of their own, in their order. -/
theorem nextCtor_injective {i j : Nat} (h : s.nextCtor i = s.nextCtor j) : i = j := by
  simp only [nextCtor, CtorHandle.mk.injEq] at h
  omega

/-- The constructor stored under the handle that the one at place `i` of a definition got. -/
theorem entry?_nextCtor (s : Store ω π) (d : Definition ω π) {i : Nat} {k : CtorDefinition ω π}
    (hk : d.ctors[i]? = some k) :
    entry? (s.declared d) (s.nextCtor i) = some (s.storedOf (s.nextCtor i) k) := by
  have hlow : ¬(s.nextCtor i).index < (s.nextCtor 0).index := by
    simp only [nextCtor]
    omega
  have hi : (s.nextCtor i).index - (s.nextCtor 0).index = i := by
    simp only [nextCtor]
    omega
  rw [entry?_declared, if_neg hlow, hi, hk]
  rfl

/-- A constructor stored after a definition was added is an old one or of the definition. -/
theorem entry?_declared_cases {d : Definition ω π} {j : CtorHandle} {e : StoredCtor ω π}
    (h : entry? (s.declared d) j = some e) :
    s.entry? j = some e ∨
      ∃ i k, d.ctors[i]? = some k ∧ j = s.nextCtor i ∧ e = s.storedOf j k := by
  rw [entry?_declared] at h
  by_cases hj : j.index < (s.nextCtor 0).index
  · rw [if_pos hj] at h
    exact .inl h
  · rw [if_neg hj] at h
    obtain ⟨k, hk, he⟩ := Option.map_eq_some_iff.mp h
    refine .inr ⟨_, k, hk, ?_, he.symm⟩
    cases j
    simp only [nextCtor, CtorHandle.mk.injEq] at hj ⊢
    omega

theorem exists_of_mem_declOf {d : Definition ω π} {j : CtorHandle}
    (hj : j ∈ (s.declOf d).ctors) : ∃ i k, d.ctors[i]? = some k ∧ j = s.nextCtor i := by
  obtain ⟨i, hi, rfl⟩ := List.mem_map.mp hj
  exact ⟨i, _, List.getElem?_eq_getElem (List.mem_range.mp hi), rfl⟩

/-- The constructors of an admitted definition are told apart by their parameters. -/
theorem Admits.index_eq {d : Definition ω π} (hd : s.Admits d) {i j : Nat}
    {a b : CtorDefinition ω π} (ha : d.ctors[i]? = some a) (hb : d.ctors[j]? = some b)
    (hp : a.params = b.params) : i = j := by
  obtain ⟨hi, rfl⟩ := List.getElem?_eq_some_iff.mp ha
  obtain ⟨hj, rfl⟩ := List.getElem?_eq_some_iff.mp hb
  have hne := List.pairwise_iff_getElem.mp hd.signatures
  rcases Nat.lt_trichotomy i j with h | h | h
  · exact absurd hp (hne i j hi hj h)
  · exact h
  · exact absurd hp.symm (hne j i hj hi h)

theorem Grounded.declOf {d : Definition ω π} (hd : s.Admits d) :
    (s.declared d).Grounded s.nextType (s.declOf d) where
  handle := rfl
  superclass u hu := by
    obtain ⟨e, he, hclass⟩ := hd.superclass u hu
    exact ⟨index_lt_nextType he, e, (Grows.declared s d).decl? he, hclass⟩
  interfaces u hu := by
    obtain ⟨e, he, hint⟩ := hd.interfaces u hu
    exact ⟨index_lt_nextType he, e, (Grows.declared s d).decl? he, hint⟩
  enclosing u hu := by
    have hu := hd.enclosing u hu
    obtain ⟨e, he⟩ := contains_iff.mp hu
    exact ⟨index_lt_nextType he, (Grows.declared s d).contains hu⟩
  component x hx := by
    change d.sort.shape = .array x at hx
    cases hsort : d.sort <;> simp [hsort, DefinitionSort.shape] at hx
  shape _ := by
    change d.sort.shape ≠ .null ∧ ∀ p, d.sort.shape ≠ .primitive p
    cases d.sort <;> simp [DefinitionSort.shape]
  ctors_class h := by
    change d.sort.shape = .classType
    cases hsort : d.sort with
    | classType => rfl
    | interface =>
      rw [Store.declOf, Definition.declaredAs, hd.ctors hsort] at h
      exact absurd rfl h
  ctors_nodup := List.Nodup.map (fun _ _ => nextCtor_injective) List.nodup_range
  ctors j hj := by
    obtain ⟨i, k, hk, rfl⟩ := exists_of_mem_declOf hj
    exact ⟨_, entry?_nextCtor s d hk, rfl⟩
  signatures j hj k hk e f he hf hp := by
    obtain ⟨i, a, ha, rfl⟩ := exists_of_mem_declOf hj
    obtain ⟨i', b, hb, rfl⟩ := exists_of_mem_declOf hk
    rw [entry?_nextCtor s d ha] at he
    rw [entry?_nextCtor s d hb] at hf
    cases he
    cases hf
    rw [hd.index_eq ha hb hp]

theorem Housed.declared {d : Definition ω π} (hd : s.Admits d) {i : Nat} {k : CtorDefinition ω π}
    (hk : d.ctors[i]? = some k) :
    (s.declared d).Housed (s.nextCtor i) (s.storedOf (s.nextCtor i) k) where
  handle := rfl
  owner := by
    obtain ⟨hi, -⟩ := List.getElem?_eq_some_iff.mp hk
    refine ⟨s.declOf d, ?_, List.mem_map.mpr ⟨i, List.mem_range.mpr hi, rfl⟩⟩
    show (s.declared d).decl? s.nextType = some (s.declOf d)
    rw [decl?_declared, if_pos rfl]
  params p hp := (Grows.declared s d).canHold (hd.params k (List.mem_of_getElem? hk) p hp)
  variadic hv := by
    obtain ⟨x, hx⟩ := hd.variadic k (List.mem_of_getElem? hk) hv
    obtain ⟨last, hlast, hcomp⟩ := Option.bind_eq_some_iff.mp hx
    exact ⟨x, Option.bind_eq_some_iff.mpr
      ⟨last, hlast, (Grows.declared s d).component? hcomp⟩⟩

theorem WellFormed.declared (hs : s.WellFormed) {d : Definition ω π} (hd : s.Admits d) :
    (s.declared d).WellFormed where
  decls {t e} he := by
    rw [decl?_declared] at he
    by_cases ht : t = s.nextType
    · rw [if_pos ht] at he
      cases he
      subst ht
      exact .declOf hd
    · rw [if_neg ht] at he
      exact (hs.decls he).mono (.declared s d)
  entries {j e} he := by
    rcases entry?_declared_cases he with he | ⟨i, k, hk, rfl, rfl⟩
    · exact (hs.entries he).mono (.declared s d)
    · exact .declared hd hk
  arrays {t u x} ht hu := by
    -- a definition introduces no array type
    have hnew : (s.declOf d).shape ≠ .array x := by
      change d.sort.shape ≠ .array x
      cases d.sort <;> simp [DefinitionSort.shape]
    rcases component?_push ht with ⟨-, h⟩ | ht
    · exact absurd h hnew
    rcases component?_push hu with ⟨-, h⟩ | hu
    · exact absurd h hnew
    · exact hs.arrays ht hu
  unlocked hk := by
    obtain ⟨e, he⟩ := hs.unlocked hk
    have hgrows := Grows.declared s d
    exact ⟨e, hgrows.entry? he⟩

theorem exists_entry?_of_owns {k : Ctor} (h : s.owns k = true) :
    ∃ e, s.entry? k.handle = some e ∧ e.ctor.owner = k.owner := by
  obtain ⟨e, he, ho⟩ := (Option.any_eq_true _ _).mp h
  exact ⟨e, he, beq_iff_eq.mp ho⟩

/-- Unlocking changes nothing but the record of what was unlocked. -/
theorem WellFormed.unlock (hs : s.WellFormed) (k : Ctor) :
    ((Store.unlock k).run s).2.WellFormed := by
  obtain ⟨-, h⟩ | ⟨-, -, h⟩ | ⟨-, -, -, h⟩ | ⟨ho, -, -, h⟩ := s.unlock_cases k <;> rw [h]
  · exact hs
  · exact hs
  · exact hs
  · refine ⟨fun he => (hs.decls he).mono ⟨rfl, id, id, List.mem_cons_of_mem _⟩,
      fun he => (hs.entries he).mono ⟨rfl, id, id, List.mem_cons_of_mem _⟩, hs.arrays, ?_⟩
    intro j hj
    rcases List.mem_cons.mp hj with rfl | hj
    · obtain ⟨e, he, -⟩ := exists_entry?_of_owns ho
      exact ⟨e, he⟩
    · exact hs.unlocked hj

/-- How many instances were made is no part of the invariant. -/
theorem WellFormed.ran (hs : s.WellFormed) (n : Nat) (world : ω) :
    WellFormed { s with made := n, world } where
  decls he := (hs.decls he).mono ⟨rfl, id, id, id⟩
  entries he := (hs.entries he).mono ⟨rfl, id, id, id⟩
  arrays := hs.arrays
  unlocked := hs.unlocked

/-! ## The catalog of a well-formed store -/

/-- Links lead to smaller handles, so components nest finitely. -/
theorem WellFormed.lawful (hs : s.WellFormed) : s.catalog.Lawful where
  builtin t ht := s.decl?_builtin ht
  parent a b h := by
    unfold Catalog.IsParent Catalog.parents at h
    split at h
    · next d hd =>
      rcases List.mem_append.mp h with h | h
      · obtain ⟨-, e, he, hclass⟩ := (hs.decls hd).superclass b (Option.mem_toList.mp h)
        exact ⟨e, he, .inr hclass⟩
      · obtain ⟨-, e, he, hint⟩ := (hs.decls hd).interfaces b h
        exact ⟨e, he, .inl hint⟩
    · cases h
  finite := by
    refine .of_index_lt fun a x h => ?_
    obtain ⟨d, hd, hshape⟩ := component?_eq_some.mp h
    exact ((hs.decls hd).component x hshape).1

end Store

end BestFit
