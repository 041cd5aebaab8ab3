import BestFit.Proofs.Construction.Agreement

/-!
# Arguments of exactly the parameters' types

A constructor that the exact search finds for the types of the arguments has these types for
its parameters. Shaping then has nothing to do: a datum conforms to its own type
(`Typed.conforms`), and the last argument of a variadic constructor is an array of the declared
component already (`gather_own`). Main statement: `Reachable.make_of_exact`, the best
construction runs the same constructor on the same arguments as the exact one.
-/
namespace BestFit

namespace Factory

variable {σ π : Type} (F : Factory σ π) {t : TypeHandle} {request : List TypeHandle} {s s' : σ}

/-- The exact search answers for types that are there only, and leaves the state as it is. -/
theorem exactCtor?_eq_ok {r : Option Ctor} :
    (F.exactCtor? t request).runFrom s = (.ok r, s') ↔
      t ≠ .absent ∧ (F.source.catalog s).contains t = true ∧
        (F.source.catalog s).exactCtor? t request = r ∧ s = s' := by
  by_cases ht : t = .absent
  · rw [exactCtor?, runFrom_catalogWith_bind, if_pos ht]
    simp [ht]
  cases hc : (F.source.catalog s).contains t with
  | false =>
    rw [exactCtor?, runFrom_catalogWith_bind, if_neg ht, if_pos hc]
    simp
  | true =>
    rw [F.runFrom_exactCtor? ht hc]
    simp [ht]

/-- A construction runs the call that it finds. -/
theorem runFrom_make_of_call (e : Entry π) {call : Call π}
    (h : (e.call F t).runFrom s = (.ok call, s')) :
    (e.make F t).runFrom s = (F.run call).runFrom s' := by
  rw [e.make_eq, Failable.runFrom_bind, h]

end Factory

namespace Store

variable {ω π : Type} {s s' : Store ω π} {a : Datum π} {t x : TypeHandle} {k : Ctor}
  {args : List (Datum π)} {request : List TypeHandle} {o : Opener} {policy : Policy}

/-! ## Data of declared classes -/

/-- Whether a datum is no object, or an instance of a declared class. -/
def Genuine (s : Store ω π) (a : Datum π) : Prop :=
  ∀ i, a = .object i → s.HasShape i.type .classType

/-- A datum that has a type, one of a declared class if it is an object. -/
structure Typed (s : Store ω π) (a : Datum π) (t : TypeHandle) : Prop where
  type : s.HasType a t
  genuine : s.Genuine a

theorem Genuine.mono (h : s.Grows s') (ha : s.Genuine a) : s'.Genuine a :=
  fun i hi => (ha i hi).mono h

namespace Typed

variable (ha : s.Typed a t)
include ha

theorem mono (h : s.Grows s') : s'.Typed a t := ⟨ha.type.mono h, ha.genuine.mono h⟩

theorem ofHandle? : Primitive.ofHandle? t = none :=
  ha.type.ofHandle? fun i hi => ((ha.genuine i hi).reference (.inr rfl)).2.2

variable (hs : s.WellFormed)
include hs

/-- Only arrays have array types. -/
theorem eq_array (hx : s.catalog.component? t = some x) : ∃ items, a = .array x items := by
  have hno : s.catalog.component? t ≠ none := by simp [hx]
  cases ha.type with
  | null => exact absurd hs.lawful.component?_null hno
  | boxed _ hw => exact absurd (hs.lawful.component?_wrapper hw) hno
  | string => exact absurd hs.lawful.component?_string hno
  | @array y _ items hy =>
    obtain rfl := Option.some.inj (hx.symm.trans hy)
    exact ⟨items, rfl⟩
  | object i => exact absurd ((ha.genuine i rfl).component? (.inr rfl)) hno

/-- A datum whose type can be a parameter conforms to it. -/
theorem conforms (hcan : s.canHold t = true) : s.Conforms t a := by
  refine (conforms_reference hs ha.ofHandle?).mpr (.inr ⟨t, ha.type, ?_⟩)
  exact Catalog.converts_same (ne_absent_of_canHold hcan) (canHold_iff.mp hcan).1

end Typed

/-! ## Shaping at the own types -/

section Described

variable (hs : s.WellFormed) (hargs : List.Forall₂ s.Typed args k.params)
include hs hargs

/-- Where a constructor is variadic, the last argument fills the collecting parameter. -/
theorem filled_own {last : TypeHandle} (hl : k.lastParam? = some last)
    (hx : s.catalog.component? last = some x) : Filled k x args := by
  refine ⟨hargs.length_eq, ?_⟩
  rw [← Ctor.fixedParams_append hl] at hargs
  have hlast := List.forall₂_drop_append args k.fixedParams [last] hargs
  generalize hdrop : args.drop k.fixedParams.length = back at hlast
  cases hlast with
  | @cons a _ _ _ ha hnil =>
    cases hnil
    obtain ⟨items, rfl⟩ := ha.eq_array hs hx
    rw [← List.take_append_drop k.fixedParams.length args, hdrop, List.getLast?_concat, fillsOver,
      beq_self_eq_true]

variable (hk : s.Describes k)
include hk

theorem conform_own : (source.conform k args).runFrom s = (.ok args, s) := by
  have hcan : ∀ p ∈ k.params, s.canHold p = true := fun p hp => hs.canHold_params hk hp
  refine conform_of_conforms (((List.forall₂_and_left k.params args).mpr ⟨hcan, hargs.flip⟩).imp ?_)
  intro t a hta
  exact hta.2.conforms hs hta.1

theorem gather_own : (source.gather k args).runFrom s = (.ok args, s) := by
  refine NeedsNoGathering.gather hs fun hv => ?_
  obtain ⟨last, x, hl, hx⟩ := hs.exists_component hk hv
  exact ⟨last, x, hl, hx, filled_own hs hargs hl hx⟩

end Described

/-! ## The two constructions -/

/-- What the exact search finds for the types of the arguments is a described constructor with
these types for its parameters. -/
theorem exact_of_answered (hs : s.WellFormed) (hans : List.Forall₂ s.Answered args request)
    (hargs : ∀ a ∈ args, s.Genuine a) (h : s.catalog.exactCtor? t request = some k) :
    s.Describes k ∧ List.Forall₂ s.Typed args k.params := by
  obtain ⟨hk, rfl, -⟩ := hs.exactCtor?_eq_some.mp h
  have hdesc := (hs.of_mem_ctorsOf hk).1
  refine ⟨hdesc, List.forall₂_iff_get.mpr ⟨hans.length_eq, fun i hi hj => ⟨?_, ?_⟩⟩⟩
  · -- parameters can be held, so none of the types is the absent handle
    have hcan := hs.canHold_params hdesc (List.get_mem k.params ⟨i, hj⟩)
    exact (hans.get hi hj).resolve_right (ne_absent_of_canHold hcan)
  · exact hargs _ (List.get_mem args ⟨i, hi⟩)

section Calls

variable (hs : s.WellFormed) (hans : List.Forall₂ s.Answered args request)
  (hargs : ∀ a ∈ args, s.Genuine a)
  (h : ((factoryWith o policy).exactCtor? t request).runFrom s = (.ok (some k), s'))
include hs hans hargs h

theorem exactCall_own :
    ((factoryWith o policy).exactCall t args request).runFrom s = (.ok ⟨k, args⟩, s') := by
  obtain ⟨-, -, hk, rfl⟩ := (Factory.exactCtor?_eq_ok _).mp h
  obtain ⟨hdesc, htyped⟩ := exact_of_answered hs hans hargs hk
  exact (Factory.exactCall_eq_ok _).mpr ⟨s, h, conform_own hs htyped hdesc⟩

/-- The best search stops at an exact constructor. -/
theorem bestCall_own : ∃ s'',
    ((factoryWith o policy).bestCall t args request).runFrom s = (.ok ⟨k, args⟩, s'') := by
  obtain ⟨ht, hc, hk, rfl⟩ := (Factory.exactCtor?_eq_ok _).mp h
  obtain ⟨hdesc, htyped⟩ := exact_of_answered hs hans hargs hk
  obtain ⟨s₁, hbest⟩ : ∃ s₁, ((factoryWith o policy).bestCtor? t request).runFrom s =
      (.ok (some k), s₁) := ⟨_, Factory.runFrom_bestCtor?_of_exact _ ht hc request hk⟩
  have hsteps₁ := (steady_bestCtor? o policy t request).steps hs hbest
  have hs₁ := hsteps₁.wellFormed hs
  have hdesc₁ : s₁.Describes k := hsteps₁.grows.ctor? hdesc
  have htyped₁ := htyped.imp fun _ _ ha => ha.mono hsteps₁.grows
  exact ⟨s₁, (Factory.bestCall_eq_ok _).mpr ⟨s₁, args, s₁, hbest, gather_own hs₁ htyped₁ hdesc₁,
    conform_own hs₁ htyped₁ hdesc₁⟩⟩

end Calls

/-- The exact search for the types of the arguments finds `k`, and leaves `s'`. -/
def Matches (F : Factory (Store ω π) π) (t : TypeHandle) (args : List (Datum π)) (s : Store ω π)
    (k : Ctor) (s' : Store ω π) : Prop :=
  (F.exactCtor? t ((source.typesOf args).run s).1).runFrom ((source.typesOf args).run s).2 =
    (.ok (some k), s')

/-- Where the exact search finds a constructor for the types of the arguments, the exact and the
best construction run it on the arguments as they are, and neither complains about them. -/
theorem Reachable.make_of_exact (hs : s.Reachable)
    (hargs : ∀ i, Datum.object i ∈ args → s.HasShape i.type .classType) :
    let F := factoryWith o policy
    ∀ k s₁, Matches F t args s k s₁ →
      ((Entry.exact args).call F t).runFrom s = (.ok ⟨k, args⟩, s₁) ∧
      (F.makeExact t args).runFrom s = (F.run ⟨k, args⟩).runFrom s₁ ∧
      (∃ s₂, ((Entry.best args).call F t).runFrom s = (.ok ⟨k, args⟩, s₂) ∧
        (F.make t args).runFrom s = (F.run ⟨k, args⟩).runFrom s₂) ∧
      ∀ owner cause s₂,
        (F.makeExact t args).runFrom s ≠ (.error (.badArguments owner cause), s₂) ∧
        (F.make t args).runFrom s ≠ (.error (.badArguments owner cause), s₂) := by
  intro F k s₁ hmatch
  have hwf := hs.wellFormed
  obtain ⟨request, s₀, hrun, hsteps, hans⟩ := hwf.run_typesOf args
  rw [Matches, hrun] at hmatch
  have hs₀ := hsteps.wellFormed hwf
  have hargs₀ : ∀ a ∈ args, s₀.Genuine a := by
    intro a ha
    refine Genuine.mono hsteps.grows fun i hi => hargs i ?_
    rwa [← hi]
  have hexact : ((Entry.exact args).call F t).runFrom s = (.ok ⟨k, args⟩, s₁) := by
    rw [Entry.runFrom_call, show ((Entry.exact args).request F).run s = (request, s₀) from hrun]
    exact exactCall_own hs₀ hans hargs₀ hmatch
  obtain ⟨s₂, hcall⟩ := bestCall_own hs₀ hans hargs₀ hmatch
  have hbest : ((Entry.best args).call F t).runFrom s = (.ok ⟨k, args⟩, s₂) := by
    rw [Entry.runFrom_call, show ((Entry.best args).request F).run s = (request, s₀) from hrun]
    exact hcall
  have hmakeExact : (F.makeExact t args).runFrom s = (F.run ⟨k, args⟩).runFrom s₁ :=
    F.runFrom_make_of_call (.exact args) hexact
  have hmake : (F.make t args).runFrom s = (F.run ⟨k, args⟩).runFrom s₂ :=
    F.runFrom_make_of_call (.best args) hbest
  refine ⟨hexact, hmakeExact, ⟨s₂, hbest, hmake⟩, fun owner cause s₃ => ⟨?_, ?_⟩⟩
  · rw [hmakeExact]
    exact F.run_ne_badArguments _ owner cause
  · rw [hmake]
    exact F.run_ne_badArguments _ owner cause

/-- An array of animals for a kennel: the variadic constructor has exactly that parameter. -/
theorem make_of_exact_kennel :
    kennels.Reachable ∧
    (∀ i, Datum.object i ∈ [Datum.array ⟨100⟩ twoDogs] → kennels.HasShape i.type .classType) ∧
    Matches (factoryWith .self {}) ⟨103⟩ [.array ⟨100⟩ twoDogs] kennels kennelOfAny kennels ∧
    let F := factoryWith .self {}
    ((Entry.exact [.array ⟨100⟩ twoDogs]).call F ⟨103⟩).runFrom kennels =
      (.ok ⟨kennelOfAny, [.array ⟨100⟩ twoDogs]⟩, kennels) ∧
    ∃ s₂, ((Entry.best [.array ⟨100⟩ twoDogs]).call F ⟨103⟩).runFrom kennels =
      (.ok ⟨kennelOfAny, [.array ⟨100⟩ twoDogs]⟩, s₂) := by
  have hreach := kennels_ownReachable.reachable
  have hargs : ∀ i, Datum.object i ∈ [Datum.array ⟨100⟩ twoDogs] →
      kennels.HasShape i.type .classType := by
    intro i hi
    cases List.mem_singleton.mp hi
  have hmatch : Matches (factoryWith .self {}) ⟨103⟩ [.array ⟨100⟩ twoDogs] kennels kennelOfAny
      kennels := rfl
  obtain ⟨hexact, -, ⟨s₂, hbest, -⟩, -⟩ := hreach.make_of_exact hargs kennelOfAny kennels hmatch
  exact ⟨hreach, hargs, hmatch, hexact, s₂, hbest⟩

end Store

end BestFit
