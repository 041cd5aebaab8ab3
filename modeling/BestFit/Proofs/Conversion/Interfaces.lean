import BestFit.Proofs.Store.Interning

/-!
# Interfaces and the class hierarchy

Classes have superclasses, up to the root; interfaces are meant to have none, but a definition may
give one to an interface all the same, and the checks let that pass. Then the interface, and every
interface that extends it, converts to that class and to the classes above. `SeparatesInterfaces`
says that nothing of the kind happened. Main statement: `BuiltReachable.superclasses`.
-/
namespace BestFit

open Relation (ReflTransGen)

/-! ## Definitions as callers build them -/

namespace Definition

variable {ω π : Type} {d : Definition ω π}

/-- What a caller can add to a definition. -/
inductive Addition (ω π : Type) where
  | beingPublic
  | beingAbstract
  | beingFinal
  | superclass (t : TypeHandle)
  | interface (t : TypeHandle)
  | enclosing (t : TypeHandle)
  | ctor (k : CtorDefinition ω π)

/-- A definition with something added; what there can be only one of is replaced. -/
def add (d : Definition ω π) : Addition ω π → Definition ω π
  | .beingPublic => { d with modifiers := { d.modifiers with isPublic := true } }
  | .beingAbstract => { d with modifiers := { d.modifiers with isAbstract := true } }
  | .beingFinal => { d with modifiers := { d.modifiers with isFinal := true } }
  | .superclass t => { d with superclass := some t }
  | .interface t => { d with interfaces := d.interfaces ++ [t] }
  | .enclosing t => { d with enclosing := some t }
  | .ctor k => { d with ctors := d.ctors ++ [k] }

/-- The definitions that start as a class or an interface and have things added. -/
inductive Built : Definition ω π → Prop
  | ofClass (name : String) : Built (.ofClass name)
  | ofInterface (name : String) : Built (.ofInterface name)
  | add {d : Definition ω π} (h : Built d) (a : Addition ω π) : Built (d.add a)

/-- A class keeps some superclass, whatever is added. -/
theorem Built.exists_superclass (h : d.Built) (hsort : d.sort = .classType) :
    ∃ u, d.superclass = some u := by
  induction h with
  | ofClass name => exact ⟨_, rfl⟩
  | ofInterface name => cases hsort
  | add _ a ih =>
    cases a with
    | superclass t => exact ⟨t, rfl⟩
    | beingPublic | beingAbstract | beingFinal | interface | enclosing | ctor => exact ih hsort

end Definition

/-- Among the built-in types, the roots have no superclass: `Object`, the type of null and the
primitive types. -/
theorem Builtin.superclass_eq_none_iff : ∀ d ∈ Builtin.decls, d.superclass = none ↔
    d.handle = .object ∨ d.handle = .null ∨ (Primitive.ofHandle? d.handle).isSome = true := by
  decide

theorem Primitive.index_of_ofHandle? {t : TypeHandle}
    (h : (Primitive.ofHandle? t).isSome = true) : t.index < TypeHandle.firstDeclared := by
  obtain ⟨p, hp⟩ := Option.isSome_iff_exists.mp h
  obtain rfl := Primitive.eq_handle_of_ofHandle? hp
  cases p <;> decide

namespace Store

variable {ω π : Type} {s : Store ω π} {t u : TypeHandle} {d : TypeDecl} {sh : Shape}

/-- The operations in which definitions are built. -/
def Operation.IsBuilt : Operation ω π → Prop
  | .declare d => d.Built
  | .arrayOf _ | .unlock _ | .instantiate .. | .elsewhere _ => True

/-- The stores that come about by such operations. -/
inductive BuiltReachable : Store ω π → Prop
  | initial (serial : Nat) (world : ω) : BuiltReachable { serial, world }
  | apply {s : Store ω π} (h : BuiltReachable s) {op : Operation ω π} (hop : op.IsBuilt) :
      BuiltReachable (s.apply op)

theorem BuiltReachable.reachable (hs : s.BuiltReachable) : s.Reachable := by
  induction hs with
  | initial serial world => exact .initial serial world
  | apply _ _ ih => exact ih.apply _

theorem BuiltReachable.declare (hs : s.BuiltReachable) {d : Definition ω π} (hd : d.Built) :
    (s.apply (.declare d)).BuiltReachable := hs.apply hd

/-! ## Superclasses -/

/-- A type is declared with a certain shape. -/
def HasShape (s : Store ω π) (t : TypeHandle) (sh : Shape) : Prop :=
  ∃ d, s.decl? t = some d ∧ d.shape = sh

theorem HasShape.unique {sh' : Shape} (h : s.HasShape t sh) (h' : s.HasShape t sh') :
    sh = sh' := by
  obtain ⟨d, hd, rfl⟩ := h
  obtain ⟨e, he, rfl⟩ := h'
  rw [Option.some.inj (hd.symm.trans he)]

theorem superclass?_of_decl? (hd : s.decl? t = some d) :
    s.catalog.superclass? t = d.superclass := by
  rw [Catalog.superclass?, catalog_decl?, hd]
  rfl

theorem HasShape.mono {s' : Store ω π} (h : s.Grows s') (ht : s.HasShape t sh) :
    s'.HasShape t sh := by
  obtain ⟨d, hd, hshape⟩ := ht
  exact ⟨d, h.decl? hd, hshape⟩

theorem HasShape.contains (h : s.HasShape t sh) : s.catalog.contains t = true := by
  obtain ⟨d, hd, -⟩ := h
  exact contains_iff.mpr ⟨d, hd⟩

/-- A superclass is one step above. -/
theorem isParent_of_superclass? (h : s.catalog.superclass? t = some u) :
    s.catalog.IsParent t u := by
  obtain ⟨d, hd, hu⟩ := Option.bind_eq_some_iff.mp h
  rw [Catalog.IsParent, Catalog.parents, hd]
  exact List.mem_append_left _ (Option.mem_toList.mpr hu)

/-- Every class that was added to a store has a superclass. -/
theorem BuiltReachable.exists_superclass (hs : s.BuiltReachable) (hd : s.decl? t = some d)
    (ht : TypeHandle.firstDeclared ≤ t.index) (hclass : d.shape = .classType) :
    ∃ u, d.superclass = some u := by
  induction hs generalizing t with
  | initial serial world =>
    rw [decl?, if_neg (Nat.not_lt.mpr ht)] at hd
    simp at hd
  | @apply s _ op hop ih =>
    rcases decl?_apply hd with hd | ⟨-, hnew⟩
    · exact ih hd ht
    · cases hnew with
      | @definition d _ =>
        refine Definition.Built.exists_superclass hop ?_
        change d.sort.shape = .classType at hclass
        cases hsort : d.sort with
        | classType => rfl
        | interface => simp [hsort, DefinitionSort.shape] at hclass
      | array => cases hclass

/-- Interfaces aside, the types without superclass are the roots. -/
theorem BuiltReachable.superclass?_eq_none_iff (hs : s.BuiltReachable)
    (ht : s.catalog.contains t = true) (hn : ¬s.HasShape t .interface) :
    s.catalog.superclass? t = none ↔
      t = .object ∨ t = .null ∨ (Primitive.ofHandle? t).isSome = true := by
  obtain ⟨d, hd⟩ := contains_iff.mp ht
  rw [superclass?_of_decl? hd]
  by_cases hlow : t.index < TypeHandle.firstDeclared
  · rw [s.decl?_builtin hlow] at hd
    rw [Builtin.superclass_eq_none_iff d (Builtin.mem_decls hd), TypeDecl.handle_of_lookup hd]
  · have hhigh := Nat.le_of_not_lt hlow
    have hsome : ∃ u, d.superclass = some u := by
      cases hshape : d.shape with
      | classType => exact hs.exists_superclass hd hhigh hshape
      | array x =>
        obtain ⟨_, -, harray⟩ := hs.reachable.array_decl hd hshape
        exact ⟨.object, harray.superclass⟩
      | interface => exact absurd ⟨d, hd, hshape⟩ hn
      | null => exact absurd hshape ((hs.reachable.wellFormed.decls hd).shape hhigh).1
      | primitive p => exact absurd hshape (((hs.reachable.wellFormed.decls hd).shape hhigh).2 p)
    obtain ⟨u, hu⟩ := hsome
    rw [hu]
    refine ⟨nofun, ?_⟩
    rintro (rfl | rfl | hp)
    · exact absurd (by decide) hlow
    · exact absurd (by decide) hlow
    · exact absurd (Primitive.index_of_ofHandle? hp) hlow

/-- The roots have no superclass in any store. -/
theorem superclass?_root (s : Store ω π)
    (ht : t = .object ∨ t = .null ∨ (Primitive.ofHandle? t).isSome = true) :
    s.catalog.superclass? t = none := by
  have hroot : t.index < TypeHandle.firstDeclared ∧
      ∃ d, Builtin.decl? t = some d ∧ d.superclass = none := by
    rcases ht with rfl | rfl | hp
    · exact ⟨by decide, _, rfl, rfl⟩
    · exact ⟨by decide, _, rfl, rfl⟩
    · refine ⟨Primitive.index_of_ofHandle? hp, ?_⟩
      obtain ⟨p, hp⟩ := Option.isSome_iff_exists.mp hp
      obtain rfl := Primitive.eq_handle_of_ofHandle? hp
      cases p <;> exact ⟨_, rfl, rfl⟩
  obtain ⟨hlow, d, hd, hnone⟩ := hroot
  rw [superclass?_of_decl? ((s.decl?_builtin hlow).trans hd), hnone]

/-! ## From interfaces to classes -/

/-- A way up from an interface to a class leads through a superclass that some interface on the
way was given. -/
theorem WellFormed.exists_crossing (hs : s.WellFormed) (ht : s.HasShape t .interface)
    (hu : s.HasShape u .classType) (h : ReflTransGen s.catalog.IsParent t u) :
    ∃ i v, s.HasShape i .interface ∧ ReflTransGen s.catalog.IsParent t i ∧
      s.catalog.superclass? i = some v ∧ ReflTransGen s.catalog.IsParent v u := by
  induction h using ReflTransGen.head_induction_on with
  | refl => cases ht.unique hu
  | @head t w htw hup ih =>
    obtain ⟨d, hd, hshape⟩ := ht
    have hw : w ∈ d.parents := by
      simpa [Catalog.IsParent, Catalog.parents, hd] using htw
    rcases List.mem_append.mp hw with hw | hw
    · refine ⟨t, w, ⟨d, hd, hshape⟩, .refl, ?_, hup⟩
      rw [superclass?_of_decl? hd, Option.mem_toList.mp hw]
    · -- the interfaces of an interface are interfaces, so the way goes on from one
      obtain ⟨i, v, hi, hti, hv, hvu⟩ := ih ((hs.decls hd).interfaces w hw).2
      exact ⟨i, v, hi, .head htw hti, hv, hvu⟩

/-- Classes and interfaces are reference types other than that of null. -/
theorem HasShape.reference (h : s.HasShape t sh) (hsh : sh = .interface ∨ sh = .classType) :
    t ≠ .absent ∧ t ≠ .null ∧ Primitive.ofHandle? t = none := by
  obtain ⟨d, hd, rfl⟩ := h
  have hbuiltin : ∀ e ∈ Builtin.decls, e.shape = .interface ∨ e.shape = .classType →
      e.handle ≠ .null ∧ Primitive.ofHandle? e.handle = none := by decide
  refine ⟨ne_absent_of_contains (contains_iff.mpr ⟨d, hd⟩), ?_⟩
  by_cases hlow : t.index < TypeHandle.firstDeclared
  · rw [s.decl?_builtin hlow] at hd
    rw [← TypeDecl.handle_of_lookup hd]
    exact hbuiltin d (Builtin.mem_decls hd) hsh
  · constructor
    · rintro rfl
      exact hlow (by decide)
    · rw [← Option.not_isSome_iff_eq_none]
      exact mt Primitive.index_of_ofHandle? hlow

theorem HasShape.component? (h : s.HasShape t sh) (hsh : sh = .interface ∨ sh = .classType) :
    s.catalog.component? t = none := by
  obtain ⟨d, hd, rfl⟩ := h
  rcases hsh with hsh | hsh <;>
    simp [Catalog.component?, hd, TypeDecl.component?, hsh]

/-- An interface converts to a class, the root aside, exactly if the class is above it. -/
theorem WellFormed.converts_interface_iff (hs : s.WellFormed) {boxing : Bool}
    (ht : s.HasShape t .interface) (hu : s.HasShape u .classType) (ho : u ≠ .object) :
    s.catalog.converts boxing t u = true ↔ ReflTransGen s.catalog.IsParent t u := by
  obtain ⟨ha, hn, hp⟩ := ht.reference (.inl rfl)
  obtain ⟨hb, -, hq⟩ := hu.reference (.inr rfl)
  have hcomp := ht.component? (.inl rfl)
  have hrefers : s.catalog.Refers t u ↔ ReflTransGen s.catalog.IsParent t u := by
    constructor
    · intro h
      obtain ⟨-, -, h | ⟨-, h⟩ | ⟨x, _, hx, -⟩⟩ := Catalog.refers_iff.mp h
      · exact absurd h ho
      · exact h
      · exact absurd hx (Catalog.not_hasComponent hcomp)
    · exact .climb ht.contains hu.contains hcomp
  rw [Catalog.converts_iff hs.lawful.finite, ← hrefers]
  constructor
  · intro h
    cases h with
    | null => exact absurd rfl hn
    | same => cases ht.unique hu
    | widen | box => simp at hp
    | refer _ _ _ _ _ h => exact h
    | unbox => simp at hq
  · exact .refer ha hb hn hp hq

/-! ## All of it -/

/-- No interface takes part in the hierarchy of classes. -/
structure SeparatesInterfaces (s : Store ω π) : Prop where
  roots : ∀ t, t = .object ∨ t = .null ∨ (Primitive.ofHandle? t).isSome = true →
    s.catalog.superclass? t = none
  interfaces : ∀ t, s.HasShape t .interface → s.catalog.superclass? t = none
  classes : ∀ t, s.HasShape t .classType → t ≠ .object → s.catalog.superclass? t ≠ none
  arrays : ∀ t x, s.HasShape t (.array x) → s.catalog.superclass? t ≠ none
  apart : ∀ boxing t u, s.HasShape t .interface → s.HasShape u .classType → u ≠ .object →
    s.catalog.converts boxing t u = false

/-- Which types have a superclass, and which interfaces convert to classes: those with an
interface above them, or in their own place, that was given a superclass below the root. So
interfaces are kept apart from classes exactly if none was given a superclass. -/
theorem BuiltReachable.superclasses (hs : s.BuiltReachable) :
    (∀ t, s.catalog.contains t = true → ¬s.HasShape t .interface →
      (s.catalog.superclass? t = none ↔
        t = .object ∨ t = .null ∨ (Primitive.ofHandle? t).isSome = true)) ∧
    (∀ boxing t u, s.HasShape t .interface → s.HasShape u .classType → u ≠ .object →
      (s.catalog.converts boxing t u = true ↔
        ∃ i v, s.HasShape i .interface ∧ ReflTransGen s.catalog.IsParent t i ∧
          s.catalog.superclass? i = some v ∧ ReflTransGen s.catalog.IsParent v u)) ∧
    (s.SeparatesInterfaces ↔
      ∀ t, s.HasShape t .interface → s.catalog.superclass? t = none) := by
  have hwf := hs.reachable.wellFormed
  have hsuper := fun t ht hn => hs.superclass?_eq_none_iff (t := t) ht hn
  have hconv : ∀ boxing t u, s.HasShape t .interface → s.HasShape u .classType → u ≠ .object →
      (s.catalog.converts boxing t u = true ↔
        ∃ i v, s.HasShape i .interface ∧ ReflTransGen s.catalog.IsParent t i ∧
          s.catalog.superclass? i = some v ∧ ReflTransGen s.catalog.IsParent v u) := by
    intro boxing t u ht hu ho
    rw [hwf.converts_interface_iff ht hu ho]
    refine ⟨hwf.exists_crossing ht hu, ?_⟩
    rintro ⟨i, v, -, hti, hv, hvu⟩
    exact hti.trans (.head (isParent_of_superclass? hv) hvu)
  refine ⟨hsuper, hconv, fun h => h.interfaces, fun hnone => ?_⟩
  exact {
    roots := fun t ht => s.superclass?_root ht
    interfaces := hnone
    classes := by
      intro t ht ho
      obtain ⟨-, hn, hp⟩ := ht.reference (.inr rfl)
      rw [Ne, hsuper t ht.contains fun hi => by cases ht.unique hi]
      simp [ho, hn, hp]
    arrays := by
      intro t x ht
      have hlow := firstDeclared_le_of_component? (component?_eq_some.mpr ht)
      rw [Ne, hsuper t ht.contains fun hi => by cases ht.unique hi]
      rintro (rfl | rfl | hp)
      · exact absurd hlow (by decide)
      · exact absurd hlow (by decide)
      · exact absurd (Primitive.index_of_ofHandle? hp) (Nat.not_lt.mpr hlow)
    apart := by
      intro boxing t u ht hu ho
      rw [← Bool.not_eq_true, hconv boxing t u ht hu ho]
      rintro ⟨i, v, hi, -, hv, -⟩
      rw [hnone i hi] at hv
      cases hv }

/-- Animals, pets and house pets. Pets are an interface, but were given the class of animals as
superclass; house pets are an interface that extends that of pets. -/
def pets : Store Journal Nat :=
  ({ serial := 1, world := [] } : Store Journal Nat)
    |>.apply (.declare ((Definition.ofClass "Animal").add .beingPublic))
    |>.apply (.declare ((Definition.ofInterface "Pet").add (.superclass ⟨100⟩)))
    |>.apply (.declare ((Definition.ofInterface "HousePet").add (.interface ⟨101⟩)))

theorem pets_builtReachable : pets.BuiltReachable :=
  (BuiltReachable.initial 1 [])
    |>.declare ((Definition.Built.ofClass _).add _)
    |>.declare ((Definition.Built.ofInterface _).add _)
    |>.declare ((Definition.Built.ofInterface _).add _)

/-- House pets have no superclass of their own; they convert to animals through pets. -/
theorem superclasses_pets :
    pets.BuiltReachable ∧ pets.HasShape ⟨102⟩ .interface ∧ pets.HasShape ⟨100⟩ .classType ∧
    pets.catalog.superclass? ⟨102⟩ = none ∧ pets.catalog.converts true ⟨102⟩ ⟨100⟩ = true ∧
    ¬pets.SeparatesInterfaces := by
  obtain ⟨-, hconv, hseparates⟩ := pets_builtReachable.superclasses
  have hpet : pets.HasShape ⟨101⟩ .interface := ⟨_, rfl, rfl⟩
  have hhouse : pets.HasShape ⟨102⟩ .interface := ⟨_, rfl, rfl⟩
  have hanimal : pets.HasShape ⟨100⟩ .classType := ⟨_, rfl, rfl⟩
  refine ⟨pets_builtReachable, hhouse, hanimal, rfl, ?_, ?_⟩
  · refine (hconv true _ _ hhouse hanimal (by decide)).mpr ⟨⟨101⟩, ⟨100⟩, hpet, .single ?_, rfl, .refl⟩
    exact List.mem_singleton_self _
  · intro h
    cases hseparates.mp h _ hpet

/-- The interface of pets has a superclass, and converts to it. -/
theorem not_separatesInterfaces_pets :
    pets.BuiltReachable ∧ pets.HasShape ⟨101⟩ .interface ∧
    pets.catalog.superclass? ⟨101⟩ = some ⟨100⟩ ∧ pets.HasShape ⟨100⟩ .classType ∧
    (⟨100⟩ : TypeHandle) ≠ .object ∧ pets.catalog.converts false ⟨101⟩ ⟨100⟩ = true ∧
    ¬pets.SeparatesInterfaces := by
  have hpet : pets.HasShape ⟨101⟩ .interface := ⟨_, rfl, rfl⟩
  refine ⟨pets_builtReachable, hpet, rfl, ⟨_, rfl, rfl⟩, by decide, by decide, ?_⟩
  intro h
  cases h.interfaces _ hpet

end Store

end BestFit
