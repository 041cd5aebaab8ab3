import BestFit.Proofs.Access.Sessions
import BestFit.Proofs.Selection.Stability

/-!
# Answers that last

A store grows with what is declared and asked of it, and searches unlock constructors on their
way. None of that changes an answer once given: as soon as the types of a question are declared,
its answer is settled, provided that constructors are passed on as the store described them. Main
statement: `LeadsTo.answersAlike`.
-/
namespace BestFit.Store

variable {ω π : Type} {s s' : Store ω π}

/-- The stores that truthful requests lead to, one after another. -/
inductive LeadsTo (s : Store ω π) : Store ω π → Prop
  | refl : LeadsTo s s
  | serve {s' : Store ω π} (h : LeadsTo s s') {q : Turn ω π} (hq : s'.IsTruthful q) :
      LeadsTo s (s'.serve q)

theorem LeadsTo.declare (h : s.LeadsTo s') (d : Definition ω π) :
    s.LeadsTo (s'.apply (.declare d)) := h.serve (q := .direct (.declare d)) trivial

theorem LeadsTo.arrayOf (h : s.LeadsTo s') (x : TypeHandle) :
    s.LeadsTo (s'.apply (.arrayOf x)) := h.serve (q := .direct (.arrayOf x)) trivial

/-- About the types that the first store knows, both stores say the same. -/
structure AnswersAlike (s s' : Store ω π) : Prop where
  decl : ∀ t, s.catalog.contains t = true → s'.catalog.decl? t = s.catalog.decl? t
  ctors : ∀ t, s.catalog.contains t = true → s'.catalog.ctorsOf t = s.catalog.ctorsOf t
  converts : ∀ boxing a b, s.catalog.contains a = true → s.catalog.contains b = true →
    s'.catalog.converts boxing a b = s.catalog.converts boxing a b
  exactCtor : ∀ o policy t request, s.catalog.contains t = true →
    (((factoryWith o policy).exactCtor? t request).runFrom s').1 =
      (((factoryWith o policy).exactCtor? t request).runFrom s).1
  bestCtor : ∀ o policy t request, s.catalog.contains t = true → s.Knows request →
    (((factoryWith o policy).bestCtor? t request).runFrom s').1 =
      (((factoryWith o policy).bestCtor? t request).runFrom s).1

theorem AnswersAlike.of_steps (h : s.OwnSteps s') (hs : s.WellFormed) : s.AnswersAlike s' where
  decl t ht := h.grows.decl?_eq ht
  ctors t ht := h.grows.ctorsOf_eq hs ht
  converts boxing a b ha hb := h.grows.converts_eq hs (h.wellFormed hs) ha hb
  exactCtor o policy t request ht := by
    have ht' := h.grows.contains ht
    rw [(factoryWith o policy).runFrom_exactCtor? (ne_absent_of_contains ht) ht' request,
      (factoryWith o policy).runFrom_exactCtor? (ne_absent_of_contains ht) ht request]
    simp only [factoryWith_source, source_catalog, h.grows.exactCtor?_eq hs ht request]
  bestCtor o policy t request ht hr := h.bestCtor?_eq hs o policy ht hr

/-- A run of truthful requests comes down to operations on true descriptions. -/
theorem LeadsTo.steps (h : s.LeadsTo s') (hs : s.WellFormed) : s.OwnSteps s' := by
  induction h with
  | refl => exact .refl s
  | serve _ hq ih => exact ih.trans ((ih.wellFormed hs).steps_of_isTruthful hq)

/-- What a store says about the types that it knows, it says at every later point of its run. -/
theorem LeadsTo.answersAlike {serial : Nat} {world : ω} (hs : ({ serial, world } : Store ω π).LeadsTo s)
    (h : s.LeadsTo s') : s.AnswersAlike s' := by
  have hinitial : ({ serial, world } : Store ω π).WellFormed := .initial serial world
  have hwf := (hs.steps hinitial).wellFormed hinitial
  exact .of_steps (h.steps hwf) hwf

/-- Kennels after some use: a search has unlocked the kennel of one dog, a kennel was made for
two dogs, and there are puppies and arrays of them. -/
def busyKennels : Store Journal Nat :=
  kennels
    |>.serve (.bestCtor .self {} ⟨103⟩ [⟨101⟩])
    |>.serve (.make .self {} ⟨103⟩ (.best twoDogs))
    |>.apply (.declare { name := "Puppy", sort := .classType, superclass := some ⟨101⟩ })
    |>.apply (.arrayOf ⟨104⟩)

/-- The kennel of one dog was locked and is not any more; it is found as before. -/
theorem answersAlike_busyKennels :
    ({ serial := 1, world := [] } : Store Journal Nat).LeadsTo kennels ∧ kennels.LeadsTo busyKennels ∧
    kennels.isUnlocked ⟨1⟩ = false ∧ busyKennels.isUnlocked ⟨1⟩ = true ∧
    kennels.catalog.contains ⟨103⟩ = true ∧ kennels.Knows [⟨101⟩] ∧
    (((factory {}).bestCtor? ⟨103⟩ [⟨101⟩]).runFrom busyKennels).1 =
      (((factory {}).bestCtor? ⟨103⟩ [⟨101⟩]).runFrom kennels).1 := by
  have hkennels : ({ serial := 1, world := [] } : Store Journal Nat).LeadsTo kennels :=
    LeadsTo.refl (s := { serial := 1, world := [] }) |>.declare _ |>.declare _ |>.arrayOf _ |>.declare _
  have hbusy : kennels.LeadsTo busyKennels :=
    LeadsTo.refl (s := kennels)
      |>.serve (q := .bestCtor ..) trivial
      |>.serve (q := .make ..) trivial
      |>.declare _
      |>.arrayOf _
  have hknown : kennels.catalog.contains ⟨103⟩ = true := by decide
  have hrequest : kennels.Knows [⟨101⟩] := by
    unfold Knows
    decide
  exact ⟨hkennels, hbusy, by decide, by decide, hknown, hrequest,
    (hkennels.answersAlike hbusy).bestCtor .self {} _ _ hknown hrequest⟩

end BestFit.Store
