import BestFit.Proofs.Store.Stability
import BestFit.Proofs.Store.Steady

/-!
# Types of data on a store

`HasType` says what type a datum has on a store, as a relation that growth keeps. To ask for
the type of an array may store it first; `run_typeOf` says that the datum has the type that
was answered from then on, and `HasType.run` that asking again changes nothing.
-/
namespace BestFit.Store

variable {ω π : Type} {s s' : Store ω π} {a : Datum π} {t u x : TypeHandle}

/-- The type of a datum as an argument. An array has a type once the type is stored. -/
inductive HasType (s : Store ω π) : Datum π → TypeHandle → Prop
  | null : HasType s .null .null
  | boxed {a : Datum π} {p : Primitive} {w : TypeHandle} (hp : a.primitive? = some p)
      (hw : p.wrapper? = some w) : HasType s a w
  | string (text : String) : HasType s (.string text) .string
  | array {x t : TypeHandle} {items : List (Datum π)} (h : s.catalog.component? t = some x) :
      HasType s (.array x items) t
  | object (a : Instance π) : HasType s (.object a) a.type

/-- What a datum's type was answered to be: one that it has, or none. -/
def Answered (s : Store ω π) (a : Datum π) (t : TypeHandle) : Prop := s.HasType a t ∨ t = .absent

theorem HasType.mono (h : s.Grows s') (ha : s.HasType a t) : s'.HasType a t := by
  cases ha with
  | null => exact .null
  | boxed hp hw => exact .boxed hp hw
  | string text => exact .string text
  | array hx => exact .array (h.component? hx)
  | object a => exact .object a

theorem Answered.mono (h : s.Grows s') (ha : s.Answered a t) : s'.Answered a t :=
  ha.imp_left (.mono h)

/-! ## Array types -/

/-- Array types are stored, so they are none of the types that every store knows. -/
theorem ne_of_component? (h : s.catalog.component? t = some x)
    (hu : u.index < TypeHandle.firstDeclared) : t ≠ u := by
  rintro rfl
  exact absurd (firstDeclared_le_of_component? h) (Nat.not_le.mpr hu)

/-- An array type is a reference type. -/
theorem ofHandle?_of_component? (h : s.catalog.component? t = some x) :
    Primitive.ofHandle? t = none := by
  rw [Option.eq_none_iff_forall_ne_some]
  intro p hp
  exact ne_of_component? h (by cases p <;> decide) (Primitive.eq_handle_of_ofHandle? hp)

/-! ## Asking for types -/

/-- Every primitive of a datum has a wrapper. -/
theorem exists_wrapper_of_primitive? {p : Primitive} (h : a.primitive? = some p) :
    ∃ w, p.wrapper? = some w := by
  cases a <;> cases h <;> exact ⟨_, rfl⟩

/-- The array type over a component is given again when it is asked for again. -/
theorem WellFormed.run_arrayOf_of_component? (hs : s.WellFormed)
    (h : s.catalog.component? t = some x) : (Store.arrayOf x).run s = (t, s) := by
  have ha := hs.array?_eq_some.mpr h
  simp [Store.arrayOf, StateT.run, ha]

/-- The answer to a request for an array type is that type, or the absent handle. -/
theorem WellFormed.run_arrayOf (hs : s.WellFormed) (x : TypeHandle) :
    ∃ t s', (Store.arrayOf x).run s = (t, s') ∧ s.OwnSteps s' ∧
      (s'.catalog.component? t = some x ∨ t = .absent ∧ s' = s) := by
  have hsteps := OwnSteps.arrayOf s x
  obtain ⟨t, ht, h⟩ | ⟨-, d, -, -, h⟩ | ⟨-, -, h⟩ := s.arrayOf_cases x
  · exact ⟨t, s, h, .refl s, .inl (hs.component?_of_array? ht)⟩
  · rw [h] at hsteps
    refine ⟨_, _, h, hsteps, .inl (component?_eq_some.mpr ⟨_, s.decl?_push_nextType _, rfl⟩)⟩
  · exact ⟨_, s, h, .refl s, .inr ⟨rfl, rfl⟩⟩

theorem typeOf_of_primitive? {σ : Type} (S : TypeSource σ) {p : Primitive} {w : TypeHandle}
    (hp : a.primitive? = some p) (hw : p.wrapper? = some w) : S.typeOf a = pure w := by
  cases a <;> cases hp <;> cases hw <;> rfl

/-- The type of a datum, asked for where it is stored. -/
theorem HasType.run (hs : s.WellFormed) (ha : s.HasType a t) :
    (source.typeOf a).run s = (t, s) := by
  cases ha with
  | null => rfl
  | boxed hp hw =>
    rw [typeOf_of_primitive? _ hp hw]
    rfl
  | string text => rfl
  | array hx => exact hs.run_arrayOf_of_component? hx
  | object a => rfl

/-- No datum has a primitive type, unless it is an object that is said to have one. -/
theorem HasType.ofHandle? (ha : s.HasType a t)
    (hobject : ∀ i, a = .object i → Primitive.ofHandle? i.type = none) :
    Primitive.ofHandle? t = none := by
  cases ha with
  | null => decide
  | boxed _ hw => exact Primitive.ofHandle?_wrapper hw
  | string => decide
  | array hx => exact ofHandle?_of_component? hx
  | object i => exact hobject i rfl

/-- A datum that has a wrapper for its type is unboxed, unless it is an object. -/
theorem HasType.primitive?_of_wrapper (hs : s.WellFormed) (ha : s.HasType a t) {p : Primitive}
    (hw : p.wrapper? = some t)
    (hobject : ∀ i, a = .object i → Primitive.ofWrapper? i.type = none) :
    a.primitive? = some p := by
  cases ha with
  | null => exact absurd rfl (Primitive.wrapper_ne_null hw)
  | boxed hp hw' => rw [hp, Primitive.eq_of_wrapper hw' hw]
  | string => cases p <;> cases hw
  | array hx =>
    rw [hs.lawful.component?_wrapper hw] at hx
    cases hx
  | object i =>
    have hnone := hobject i rfl
    rw [Primitive.ofWrapper?_wrapper hw] at hnone
    cases hnone

theorem HasType.unique (hs : s.WellFormed) (ht : s.HasType a t) (hu : s.HasType a u) : t = u := by
  have hrun := ht.run hs
  rw [hu.run hs] at hrun
  exact (congrArg Prod.fst hrun).symm

/-- A datum has the type that the store answered, if it answered one. -/
theorem WellFormed.run_typeOf (hs : s.WellFormed) (a : Datum π) :
    ∃ t s', (source.typeOf a).run s = (t, s') ∧ s.OwnSteps s' ∧ s'.Answered a t := by
  cases hp : a.primitive? with
  | some p =>
    obtain ⟨w, hw⟩ := exists_wrapper_of_primitive? hp
    have ha : s.HasType a w := .boxed hp hw
    exact ⟨w, s, ha.run hs, .refl s, .inl ha⟩
  | none =>
    cases a with
    | null => exact ⟨.null, s, rfl, .refl s, .inl .null⟩
    | string text => exact ⟨.string, s, rfl, .refl s, .inl (.string text)⟩
    | array x items =>
      obtain ⟨t, s', hrun, hsteps, h | ⟨h, -⟩⟩ := hs.run_arrayOf x
      · exact ⟨t, s', hrun, hsteps, .inl (.array h)⟩
      · exact ⟨t, s', hrun, hsteps, .inr h⟩
    | object a => exact ⟨a.type, s, rfl, .refl s, .inl (.object a)⟩
    | _ => cases hp

/-- Asked again at once, the answer is the same and nothing more happens. -/
theorem WellFormed.run_typeOf_again (hs : s.WellFormed) (a : Datum π) :
    (source.typeOf a).run ((source.typeOf a).run s).2 = (source.typeOf a).run s := by
  cases a with
  | array x items =>
    show (Store.arrayOf x).run ((Store.arrayOf x).run s).2 = (Store.arrayOf x).run s
    obtain ⟨t, s', hrun, hsteps, hx | ⟨-, rfl⟩⟩ := hs.run_arrayOf x
    · rw [hrun, (hsteps.wellFormed hs).run_arrayOf_of_component? hx]
    · rw [hrun, hrun]
  | _ => rfl

/-- The types of an argument list, asked for from left to right. -/
theorem WellFormed.run_typesOf (hs : s.WellFormed) (args : List (Datum π)) :
    ∃ ts s', (source.typesOf args).run s = (ts, s') ∧ s.OwnSteps s' ∧
      List.Forall₂ s'.Answered args ts := by
  induction args generalizing s with
  | nil => exact ⟨[], s, rfl, .refl s, .nil⟩
  | cons a args ih =>
    obtain ⟨t, s₁, hrun, hsteps, ha⟩ := hs.run_typeOf a
    obtain ⟨ts, s₂, hrest, hsteps₂, hargs⟩ := ih (hsteps.wellFormed hs)
    refine ⟨t :: ts, s₂, ?_, hsteps.trans hsteps₂, .cons (ha.mono hsteps₂.grows) hargs⟩
    rw [TypeSource.run_typesOf_cons, hrun]
    simp only [hrest]

end BestFit.Store
