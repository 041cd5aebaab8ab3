import BestFit.Proofs.Shaping.Types
import BestFit.Proofs.Store.Additions

/-!
# Array types

A store gives one array type to each type that an array can hold, and gives the same one ever
after. `Reachable.array_decl` says how array types are declared, whenever they came about. Main
statement: `Reachable.interns`.
-/
namespace BestFit.Store

variable {ω π : Type} {s s' : Store ω π} {t x : TypeHandle}

/-- The declaration of an array type follows that of its component. -/
structure IsArrayOver (x : TypeHandle) (d e : TypeDecl) : Prop where
  shape : e.shape = .array x
  name : e.name = d.name ++ "[]"
  isPublic : e.isPublic = d.isPublic
  superclass : e.superclass = some .object

theorem isArrayOver_arrayDecl (s : Store ω π) (x : TypeHandle) (d : TypeDecl) :
    IsArrayOver x d (s.arrayDecl x d) := ⟨rfl, rfl, rfl, rfl⟩

/-- Every array type was declared after its component, whatever has been declared since. -/
theorem Reachable.array_decl (hs : s.Reachable) {e : TypeDecl} (ht : s.decl? t = some e)
    (hx : e.shape = .array x) : ∃ d, s.decl? x = some d ∧ IsArrayOver x d e := by
  induction hs generalizing t with
  | initial serial world =>
    have hlow := firstDeclared_le_of_component? (component?_eq_some.mpr ⟨e, ht, hx⟩)
    rw [decl?, if_neg (by omega)] at ht
    simp at ht
  | @apply s _ op ih =>
    have hgrows := Grows.apply s op
    rcases decl?_apply ht with ht | ⟨-, hnew⟩
    · obtain ⟨d, hd, he⟩ := ih ht
      exact ⟨d, hgrows.decl? hd, he⟩
    · cases hnew with
      | @definition d _ =>
        change d.sort.shape = .array x at hx
        cases hsort : d.sort <;> simp [hsort, DefinitionSort.shape] at hx
      | @array _ d _ hd _ =>
        cases hx
        exact ⟨d, hgrows.decl? hd, isArrayOver_arrayDecl s x d⟩

/-! ## Requests -/

/-- What a request leaves behind is one operation later. -/
theorem steps_of_run_arrayOf (h : (arrayOf x).run s = (t, s')) : s.Steps s' := by
  have hsteps := Steps.apply s (.arrayOf x)
  rwa [show s.apply (.arrayOf x) = ((arrayOf x).run s).2 from rfl, h] at hsteps

namespace WellFormed

variable (hs : s.WellFormed)
include hs

/-- An array type is the answer to every later request for its component. -/
theorem run_arrayOf_later (h : s.catalog.component? t = some x) (hsteps : s.Steps s') :
    (Store.arrayOf x).run s' = (t, s') :=
  (hsteps.wellFormed hs).run_arrayOf_of_component? (hsteps.grows.component? h)

/-- What cannot be held has no array type. -/
theorem run_arrayOf_of_not_canHold (h : s.canHold x = false) :
    (Store.arrayOf x).run s = (.absent, s) := by
  obtain ⟨t, ht, -⟩ | ⟨-, d, -, hx, -⟩ | ⟨-, -, hrun⟩ := s.arrayOf_cases x
  · rw [hs.canHold_component (hs.component?_of_array? ht)] at h
    cases h
  · rw [hx] at h
    cases h
  · exact hrun

/-- What can be held has an array type from the first request on. -/
theorem run_arrayOf_of_canHold (h : s.canHold x = true) :
    ∃ t s', (Store.arrayOf x).run s = (t, s') ∧ s'.catalog.component? t = some x := by
  obtain ⟨t, ht, hrun⟩ | ⟨-, d, -, -, hrun⟩ | ⟨-, hx, -⟩ := s.arrayOf_cases x
  · exact ⟨t, s, hrun, hs.component?_of_array? ht⟩
  · exact ⟨_, _, hrun, component?_eq_some.mpr ⟨_, s.decl?_push_nextType _, rfl⟩⟩
  · rw [hx] at h
    cases h

/-- An array type that was answered has the component that was asked for. -/
theorem component?_of_run_arrayOf (h : (Store.arrayOf x).run s = (t, s')) (ht : t ≠ .absent) :
    s'.catalog.component? t = some x := by
  cases hx : s.canHold x with
  | true =>
    obtain ⟨u, s₁, hrun, hu⟩ := hs.run_arrayOf_of_canHold hx
    cases hrun.symm.trans h
    exact hu
  | false =>
    cases (hs.run_arrayOf_of_not_canHold hx).symm.trans h
    exact absurd rfl ht

end WellFormed

/-! ## All of it -/

/-- Array types and the types that arrays can hold correspond, one to one and for good. -/
structure Interns (s : Store ω π) : Prop where
  /-- Nothing comes of a request for what cannot be held. -/
  refused : ∀ x, x = .null ∨ x = .void ∨ s.catalog.contains x = false →
    (arrayOf x).run s = (.absent, s)
  /-- Everything else gets an array type, and the same one whenever it is asked for again. -/
  granted : ∀ x d, s.decl? x = some d → x ≠ .null → x ≠ .void →
    ∃ t s' e, (arrayOf x).run s = (t, s') ∧ t ≠ .absent ∧ s'.decl? t = some e ∧
      e.shape = .array x ∧ e.name = d.name ++ "[]" ∧ e.isPublic = d.isPublic ∧
      ∀ s'', s'.Steps s'' → (arrayOf x).run s'' = (t, s'')
  /-- Different types get different array types, however far apart the requests are. -/
  injective : ∀ x y t s₁ s₂ s₃, (arrayOf x).run s = (t, s₁) → s₁.Steps s₂ →
    (arrayOf y).run s₂ = (t, s₃) → t ≠ .absent → x = y
  /-- Every array type is the one of its component. -/
  canonical : ∀ t d x, s.decl? t = some d → d.shape = .array x →
    ∀ s', s.Steps s' → (arrayOf x).run s' = (t, s')

/-- Every reachable store interns its array types. -/
theorem Reachable.interns (hs : s.Reachable) : s.Interns where
  refused x hx := by
    refine hs.wellFormed.run_arrayOf_of_not_canHold ?_
    rw [← Bool.not_eq_true, canHold_iff]
    rintro ⟨hn, hv, hc⟩
    rcases hx with hx | hx | hx
    · exact hn hx
    · exact hv hx
    · rw [hx] at hc
      cases hc
  granted x d hd hn hv := by
    have hx : s.canHold x = true := canHold_iff.mpr ⟨hn, hv, contains_iff.mpr ⟨d, hd⟩⟩
    obtain ⟨t, s', hrun, ht⟩ := hs.wellFormed.run_arrayOf_of_canHold hx
    have hsteps := steps_of_run_arrayOf hrun
    obtain ⟨e, he, hshape⟩ := component?_eq_some.mp ht
    obtain ⟨d', hd', harray⟩ := (hsteps.reachable hs).array_decl he hshape
    obtain rfl : d = d' := Option.some.inj ((hsteps.grows.decl? hd).symm.trans hd')
    exact ⟨t, s', e, hrun, ne_of_component? ht (by decide), he, hshape, harray.name,
      harray.isPublic, fun s'' h => (hsteps.wellFormed hs.wellFormed).run_arrayOf_later ht h⟩
  injective x y t s₁ s₂ s₃ hx hsteps hy ht := by
    have hs₁ := (steps_of_run_arrayOf hx).wellFormed hs.wellFormed
    have hs₂ := hsteps.wellFormed hs₁
    -- in the end the one array type has both components
    have hcx : s₁.catalog.component? t = some x := hs.wellFormed.component?_of_run_arrayOf hx ht
    have hcy : s₃.catalog.component? t = some y := hs₂.component?_of_run_arrayOf hy ht
    have hlater := (hsteps.trans (steps_of_run_arrayOf hy)).grows
    exact Option.some.inj ((hlater.component? hcx).symm.trans hcy)
  canonical t d x hd hshape s' h :=
    hs.wellFormed.run_arrayOf_later (component?_eq_some.mpr ⟨d, hd, hshape⟩) h

/-- Dogs, a class that is named like an array type, and arrays of both; the array type over dogs
is a component in turn. -/
def namesakes : Store Journal Nat :=
  ({ serial := 1, world := [] } : Store Journal Nat)
    |>.apply (.declare
        { name := "Dog", sort := .classType, modifiers := { isPublic := true },
          superclass := some .object })
    |>.apply (.declare { name := "Dog[]", sort := .classType, superclass := some .object })
    |>.apply (.arrayOf ⟨100⟩)
    |>.apply (.arrayOf ⟨101⟩)
    |>.apply (.arrayOf ⟨102⟩)

theorem namesakes_reachable : namesakes.Reachable :=
  (Reachable.initial 1 []).apply _ |>.apply _ |>.apply _ |>.apply _ |>.apply _

/-- The array type over dogs stays the same, also after another definition; there is none over
the type without values. -/
theorem interns_namesakes :
    namesakes.Reachable ∧ (arrayOf .void).run namesakes = (.absent, namesakes) ∧
    (arrayOf ⟨100⟩).run namesakes = (⟨102⟩, namesakes) ∧
    let s := namesakes.apply (.declare { name := "Puppy", sort := .interface })
    (arrayOf ⟨100⟩).run s = (⟨102⟩, s) ∧ s.nextType = ⟨106⟩ := by
  have h := namesakes_reachable.interns
  refine ⟨namesakes_reachable, h.refused .void (.inr (.inl rfl)), ?_, ?_, rfl⟩
  · exact h.canonical ⟨102⟩ _ ⟨100⟩ rfl rfl _ (.refl _)
  · exact h.canonical ⟨102⟩ _ ⟨100⟩ rfl rfl _ (.apply _ _)

end BestFit.Store
