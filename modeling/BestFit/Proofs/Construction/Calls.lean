import BestFit.Factory.Construction
import BestFit.Proofs.Selection.Optimality
import BestFit.Proofs.Shaping.Gathering

/-!
# Calls

Every construction finds a call, a constructor with shaped arguments, and then runs it.
`Entry` covers the four ways to ask for one; `bestCall_eq_ok` and `exactCall_eq_ok` say what
finding the call went through, and `run_instance` what running it comes to on a store.
-/
namespace BestFit

/-- The outcome of a computation with its errors renamed. -/
theorem Failable.runFrom_adapt {σ ε δ α : Type} (f : ε → δ) (x : Failable σ ε α) (s : σ) :
    Failable.runFrom (ExceptT.adapt f x : Failable σ δ α) s =
      match x.runFrom s with
      | (.ok a, s') => (.ok a, s')
      | (.error e, s') => (.error (f e), s') := by
  change StateT.run (Except.mapError f <$> x.run) s = _
  unfold Failable.runFrom
  cases h : StateT.run x.run s with
  | mk r s' =>
    simp only [StateT.run_map, h]
    cases r <;> rfl

namespace Failable

variable {σ ε α β : Type} {P : ε → Prop}

/-- Whenever the computation fails, it does so with an error of a certain kind. -/
def FailsWith (P : ε → Prop) (x : Failable σ ε α) : Prop :=
  ∀ s e s', x.runFrom s = (.error e, s') → P e

namespace FailsWith

theorem pure (a : α) : FailsWith P (pure a : Failable σ ε α) := by
  intro s e s' h
  cases h

theorem throw {e : ε} (he : P e) : FailsWith P (throw e : Failable σ ε α) := by
  intro s e' s' h
  cases h
  exact he

theorem lift (x : StateM σ α) : FailsWith P (liftM x : Failable σ ε α) := by
  intro s e s' h
  cases h

theorem bind {x : Failable σ ε α} {f : α → Failable σ ε β} (hx : FailsWith P x)
    (hf : ∀ a, FailsWith P (f a)) : FailsWith P (x >>= f) := by
  intro s e s' h
  rw [runFrom_bind] at h
  cases hr : x.runFrom s with
  | mk r s₁ =>
    rw [hr] at h
    cases r with
    | error e' =>
      cases h
      exact hx _ _ _ hr
    | ok a => exact hf a _ _ _ h

end FailsWith

end Failable

/-- The ways to ask for an instance: with the best or the exact constructor, for the types of
the arguments or for types that the caller gives. -/
inductive Entry (π : Type) where
  | best (args : List (Datum π))
  | bestAs (args : List (Datum π)) (request : List TypeHandle)
  | exact (args : List (Datum π))
  | exactAs (args : List (Datum π)) (request : List TypeHandle)

namespace Entry

variable {σ π : Type} (F : Factory σ π) (t : TypeHandle)

/-- The arguments that the caller gives. -/
def args : Entry π → List (Datum π)
  | best args | bestAs args _ | exact args | exactAs args _ => args

/-- Whether trailing arguments may be gathered. -/
def gathers : Entry π → Bool
  | best _ | bestAs .. => true
  | exact _ | exactAs .. => false

/-- The construction asked for. -/
def make : Entry π → Failable σ FactoryError (Instance π)
  | best args => F.make t args
  | bestAs args request => F.makeAs t args request
  | exact args => F.makeExact t args
  | exactAs args request => F.makeExactAs t args request

/-- The call that the construction finds. -/
def call : Entry π → Failable σ FactoryError (Call π)
  | best args => do F.bestCall t args (← F.source.typesOf args)
  | bestAs args request => F.bestCall t args request
  | exact args => do F.exactCall t args (← F.source.typesOf args)
  | exactAs args request => F.exactCall t args request

/-- A construction is the run of the call that it finds. -/
theorem make_eq (e : Entry π) : e.make F t = (do F.run (← e.call F t)) := by
  cases e with
  | best args =>
    simp only [make, call, Factory.make, bind_assoc]
    rfl
  | bestAs args request => rfl
  | exact args =>
    simp only [make, call, Factory.makeExact, bind_assoc]
    rfl
  | exactAs args request => rfl

/-- The types that the construction goes by: those of the arguments, which are asked for, or those
that the caller gives. -/
def request : Entry π → StateM σ (List TypeHandle)
  | best args | exact args => F.source.typesOf args
  | bestAs _ request | exactAs _ request => return request

/-- The call that is found for given types. -/
def callFor (e : Entry π) (request : List TypeHandle) : Failable σ FactoryError (Call π) :=
  if e.gathers then F.bestCall t e.args request else F.exactCall t e.args request

/-- The types are settled before anything is searched. -/
theorem runFrom_call (e : Entry π) (s : σ) :
    (e.call F t).runFrom s =
      let r := (e.request F).run s
      (e.callFor F t r.1).runFrom r.2 := by
  cases e <;> rfl

end Entry

namespace Factory

variable {σ π : Type} (F : Factory σ π) {t : TypeHandle} {args : List (Datum π)}
  {request : List TypeHandle}

theorem runFrom_shaped {α : Type} (t : TypeHandle) (x : Failable σ ArgumentError α) (s : σ) :
    (F.shaped t x).runFrom s =
      match x.runFrom s with
      | (.ok a, s') => (.ok a, s')
      | (.error e, s') => (.error (.badArguments ((F.source.catalog s').nameOf t) e), s') := by
  rw [shaped, Failable.runFrom_bind, Failable.runFrom_lift]
  unfold Failable.runFrom
  cases h : StateT.run x.run s with
  | mk r s' => cases r <;> rfl

theorem runFrom_shaped_eq_ok {α : Type} {t : TypeHandle} {x : Failable σ ArgumentError α}
    {s s' : σ} {a : α} :
    (F.shaped t x).runFrom s = (.ok a, s') ↔ x.runFrom s = (.ok a, s') := by
  rw [runFrom_shaped]
  cases x.runFrom s with
  | mk r s₁ => cases r <;> simp

theorem runFrom_found (t : TypeHandle) (request : List TypeHandle) (k : Option Ctor) (s : σ) :
    (F.found t request k).runFrom s =
      match k with
      | some k => (.ok k, s)
      | none =>
          let c := F.source.catalog s
          (.error (.notFound (c.nameOf t) (c.signature request)), s) := by
  cases k <;> rfl

theorem runFrom_found_eq_ok {r : Option Ctor} {k : Ctor} {s s' : σ} :
    (F.found t request r).runFrom s = (.ok k, s') ↔ r = some k ∧ s = s' := by
  rw [runFrom_found]
  cases r <;> simp

/-- The search, the gathering and the acceptance that lead to a call. -/
theorem bestCall_eq_ok {s s' : σ} {k : Ctor} {l : List (Datum π)} :
    (F.bestCall t args request).runFrom s = (.ok ⟨k, l⟩, s') ↔
      ∃ s₁ g s₂, (F.bestCtor? t request).runFrom s = (.ok (some k), s₁) ∧
        (F.source.gather k args).runFrom s₁ = (.ok g, s₂) ∧
        (F.source.conform k g).runFrom s₂ = (.ok l, s') := by
  simp only [bestCall, Failable.runFrom_bind_eq_ok, runFrom_found_eq_ok, runFrom_shaped_eq_ok]
  constructor
  · rintro ⟨r, s₁, hbest, k', _, ⟨rfl, rfl⟩, g, s₂, hgather, l', s₃, hconform, h⟩
    cases h
    exact ⟨s₁, g, s₂, hbest, hgather, hconform⟩
  · rintro ⟨s₁, g, s₂, hbest, hgather, hconform⟩
    exact ⟨some k, s₁, hbest, k, s₁, ⟨rfl, rfl⟩, g, s₂, hgather, l, s', hconform, rfl⟩

/-- The search and the acceptance that lead to an exact call. -/
theorem exactCall_eq_ok {s s' : σ} {k : Ctor} {l : List (Datum π)} :
    (F.exactCall t args request).runFrom s = (.ok ⟨k, l⟩, s') ↔
      ∃ s₁, (F.exactCtor? t request).runFrom s = (.ok (some k), s₁) ∧
        (F.source.conform k args).runFrom s₁ = (.ok l, s') := by
  simp only [exactCall, Failable.runFrom_bind_eq_ok, runFrom_found_eq_ok, runFrom_shaped_eq_ok]
  constructor
  · rintro ⟨r, s₁, hexact, k', _, ⟨rfl, rfl⟩, l', s₂, hconform, h⟩
    cases h
    exact ⟨s₁, hexact, hconform⟩
  · rintro ⟨s₁, hexact, hconform⟩
    exact ⟨some k, s₁, hexact, k, s₁, ⟨rfl, rfl⟩, l, s', hconform, rfl⟩

/-! ## Errors of finding a call -/

section Errors

open Failable (FailsWith)

/-- Before anything is run, no error speaks of what was run. -/
abbrev FailsEarly {α : Type} (x : Failable σ FactoryError α) : Prop :=
  x.FailsWith (·.targetFailure? = none)

theorem failsEarly_catalogWith (t : TypeHandle) : FailsEarly (F.catalogWith t) := by
  refine (FailsWith.lift _).bind fun c => ?_
  split
  · exact .throw rfl
  · split
    · exact .throw rfl
    · exact .pure c

theorem failsEarly_found (t : TypeHandle) (request : List TypeHandle) (k : Option Ctor) :
    FailsEarly (F.found t request k) := by
  cases k with
  | some k => exact .pure k
  | none => exact (FailsWith.lift _).bind fun c => .throw rfl

theorem failsEarly_shaped {α : Type} (t : TypeHandle) (x : Failable σ ArgumentError α) :
    FailsEarly (F.shaped t x) := by
  refine (FailsWith.lift _).bind fun r => ?_
  cases r with
  | ok a => exact .pure a
  | error e => exact (FailsWith.lift _).bind fun c => .throw rfl

theorem failsEarly_bestCtor? (t : TypeHandle) (request : List TypeHandle) :
    FailsEarly (F.bestCtor? t request) := by
  refine (F.failsEarly_catalogWith t).bind fun c => ?_
  split
  · split
    · exact (FailsWith.lift _).bind fun _ => .pure _
    · exact .pure _
  · exact (FailsWith.lift _).bind fun _ => .pure _

theorem failsEarly_bestCall : FailsEarly (F.bestCall t args request) :=
  (F.failsEarly_bestCtor? t request).bind fun r =>
    (F.failsEarly_found t request r).bind fun _ =>
      (F.failsEarly_shaped t _).bind fun _ => (F.failsEarly_shaped t _).bind fun _ => .pure _

theorem failsEarly_exactCall : FailsEarly (F.exactCall t args request) :=
  ((F.failsEarly_catalogWith t).bind fun _ => .pure _).bind fun r =>
    (F.failsEarly_found t request r).bind fun _ => (F.failsEarly_shaped t _).bind fun _ => .pure _

/-- Whichever way a call is asked for, where none is found nothing was run. -/
theorem failsEarly_call (t : TypeHandle) (e : Entry π) : FailsEarly (e.call F t) := by
  cases e with
  | best args => exact (FailsWith.lift _).bind fun _ => F.failsEarly_bestCall
  | bestAs args request => exact F.failsEarly_bestCall
  | exact args => exact (FailsWith.lift _).bind fun _ => F.failsEarly_exactCall
  | exactAs args request => exact F.failsEarly_exactCall

end Errors

/-! ## What a construction does to the state -/

section Keeps

open Failable (Keeps)

variable {R : σ → σ → Prop}

/-- What finding a call does to the state, it does by asking for array types and by searching. -/
structure FindsTo (F : Factory σ π) (R : σ → σ → Prop) : Prop where
  arrayOf : ∀ x s, R s ((F.source.arrayOf x).run s).2
  bestCtor? : ∀ t request, Keeps R (F.bestCtor? t request)

/-- What a construction does to the state beyond that, it does by running a constructor. -/
structure KeepsTo (F : Factory σ π) (R : σ → σ → Prop) : Prop extends F.FindsTo R where
  instantiate : ∀ k args, Keeps R (F.instantiate k args)

theorem keeps_shaped {α : Type} (t : TypeHandle) {x : Failable σ ArgumentError α}
    (hx : Keeps R x) : Keeps R (F.shaped t x) := by
  intro s
  have hs := hx s
  rw [runFrom_shaped]
  cases hr : x.runFrom s with
  | mk r s' =>
    rw [hr] at hs
    cases r <;> exact hs

theorem keeps_run (hinstantiate : ∀ k args, Keeps R (F.instantiate k args)) (call : Call π) :
    Keeps R (F.run call) := by
  intro s
  have hs := hinstantiate call.ctor call.args s
  rw [Factory.run, Failable.runFrom_adapt]
  cases hr : (F.instantiate call.ctor call.args).runFrom s with
  | mk r s' =>
    rw [hr] at hs
    cases r <;> exact hs

theorem KeepsTo.run {F : Factory σ π} (hF : F.KeepsTo R) (call : Call π) :
    Keeps R (F.run call) := F.keeps_run hF.instantiate call

variable [Std.Refl R]

theorem keeps_found (t : TypeHandle) (request : List TypeHandle) (k : Option Ctor) :
    Keeps R (F.found t request k) := by
  intro s
  rw [runFrom_found]
  cases k <;> exact refl s

theorem keeps_catalogWith (t : TypeHandle) : Keeps R (F.catalogWith t) := by
  intro s
  rw [runFrom_catalogWith]
  exact refl s

theorem keeps_usable (hunlock : ∀ k s, R s ((F.unlock k).run s).2) (c : Catalog) (k : Ctor) (s : σ) :
    R s ((F.usable c k).run s).2 := by
  unfold usable
  split
  · exact refl s
  · split
    · exact hunlock k s
    · exact refl s

variable [IsTrans σ R]

theorem keeps_exactCtor? (t : TypeHandle) (request : List TypeHandle) :
    Keeps R (F.exactCtor? t request) :=
  (F.keeps_catalogWith t).bind fun _ => .pure _

section Unlocking

variable (hunlock : ∀ k s, R s ((F.unlock k).run s).2)
include hunlock

theorem keeps_usableAmong (c : Catalog) (ks : List Candidate) (s : σ) :
    R s ((F.usableAmong c ks).run s).2 := by
  induction ks generalizing s with
  | nil => exact refl s
  | cons k ks ih =>
    rw [run_usableAmong_cons]
    exact IsTrans.trans _ _ _ (F.keeps_usable hunlock c k.ctor s) (ih _)

/-- What a search does to the state, it does by unlocking. -/
theorem keeps_bestCtor? (t : TypeHandle) (request : List TypeHandle) :
    Keeps R (F.bestCtor? t request) := by
  refine (F.keeps_catalogWith t).bind fun c => ?_
  split
  · split
    · exact (Keeps.lift fun s => hunlock _ s).bind fun _ => .pure _
    · exact .pure _
  · exact (Keeps.lift (F.keeps_usableAmong hunlock c _)).bind fun _ => .pure _

end Unlocking

namespace FindsTo

variable {F : Factory σ π} (hF : F.FindsTo R)
include hF

theorem typesOf (args : List (Datum π)) :
    Keeps R (liftM (F.source.typesOf args) : Failable σ FactoryError (List TypeHandle)) :=
  .lift (F.source.keeps_typesOf hF.arrayOf args)

theorem bestCall (t : TypeHandle) (args : List (Datum π)) (request : List TypeHandle) :
    Keeps R (F.bestCall t args request) :=
  (hF.bestCtor? t request).bind fun r =>
    (F.keeps_found t request r).bind fun k =>
      (F.keeps_shaped t (F.source.keeps_gather hF.arrayOf k args)).bind fun g =>
        (F.keeps_shaped t (F.source.keeps_conform hF.arrayOf k g)).bind fun _ => .pure _

theorem exactCall (t : TypeHandle) (args : List (Datum π)) (request : List TypeHandle) :
    Keeps R (F.exactCall t args request) :=
  (F.keeps_exactCtor? t request).bind fun r =>
    (F.keeps_found t request r).bind fun k =>
      (F.keeps_shaped t (F.source.keeps_conform hF.arrayOf k args)).bind fun _ => .pure _

/-- Finding a call keeps to the relation, whichever way it is asked for. -/
theorem call (t : TypeHandle) (e : Entry π) : Keeps R (e.call F t) := by
  cases e with
  | best args => exact (hF.typesOf args).bind fun _ => hF.bestCall t args _
  | bestAs args request => exact hF.bestCall t args request
  | exact args => exact (hF.typesOf args).bind fun _ => hF.exactCall t args _
  | exactAs args request => exact hF.exactCall t args request

end FindsTo

theorem KeepsTo.make {F : Factory σ π} (hF : F.KeepsTo R) (t : TypeHandle) (e : Entry π) :
    Keeps R (e.make F t) := by
  rw [Entry.make_eq]
  exact (hF.call t e).bind hF.run

end Keeps

end Factory

namespace Store

variable {ω π : Type} {s s' : Store ω π} {t : TypeHandle} {request : List TypeHandle}
  {args : List (Datum π)} (o : Opener) (policy : Policy)

/-! ## What a construction does to a store -/

theorem steady_exactCtor? (t : TypeHandle) (request : List TypeHandle) :
    Steady ((factoryWith o policy : Factory (Store ω π) π).exactCtor? t request) :=
  steady_iff_keeps.mpr ((factoryWith o policy).keeps_exactCtor? t request)

theorem steady_bestCtor? (t : TypeHandle) (request : List TypeHandle) :
    Steady ((factoryWith o policy : Factory (Store ω π) π).bestCtor? t request) := by
  intro s hs
  have hsearch := (factoryWith o policy).bestSearch t request s
  generalize ((factoryWith o policy).bestCtor? t request).runFrom s = r at hsearch
  cases hsearch with
  | noType | unknownType => exact .refl s
  | exact _ _ hk =>
    have hdesc := (hs.of_mem_ctorsOf (hs.exactCtor?_eq_some.mp hk).1).1
    show s.OwnSteps (if policy.unlocking then ((o.unlock _).run s).2 else s)
    split
    · exact steps_opener o hdesc
    · exact .refl s
  | among _ _ _ hks =>
    have hdesc : ∀ k ∈ s.catalog.candidates policy.boxing t request, s.Describes k.ctor :=
      fun k hk => hs.describes_candidate hk
    have hsteps := steps_usableAmong o policy s.catalog hdesc
    exact (congrArg Prod.snd hks) ▸ hsteps

/-- To instantiate is one operation of the store. -/
theorem steady_instantiate (k : Ctor) (args : List (Datum π)) :
    Steady (instantiate k args : Failable (Store ω π) TargetFailure (Instance π)) :=
  fun _ _ => Relation.ReflTransGen.single ⟨.instantiate k args, trivial, rfl⟩

/-- All that a construction does to a store are operations on true descriptions. -/
theorem keepsTo_evolves : (factoryWith o policy : Factory (Store ω π) π).KeepsTo Evolves where
  arrayOf := evolves_arrayOf
  bestCtor? := steady_bestCtor? o policy
  instantiate := steady_instantiate

theorem steady_typesOf (args : List (Datum π)) :
    Steady (liftM ((source : TypeSource (Store ω π)).typesOf args) :
      Failable (Store ω π) FactoryError (List TypeHandle)) :=
  steady_iff_keeps.mpr (.lift (source.keeps_typesOf evolves_arrayOf args))

theorem steady_call (t : TypeHandle) (e : Entry π) :
    Steady (e.call (factoryWith o policy : Factory (Store ω π) π) t) :=
  (keepsTo_evolves o policy).call t e

/-! ## Where no body runs -/

/-- The bodies find the same world. -/
def SameWorld (s s' : Store ω π) : Prop := s'.world = s.world

instance : Std.Refl (SameWorld : Store ω π → Store ω π → Prop) := ⟨fun _ => rfl⟩

instance : IsTrans (Store ω π) SameWorld := ⟨fun _ _ _ h h' => h'.trans h⟩

theorem sameWorld_arrayOf (x : TypeHandle) (s : Store ω π) :
    s.SameWorld ((source.arrayOf x).run s).2 := by
  show ((arrayOf x).run s).2.world = s.world
  obtain ⟨_, -, h⟩ | ⟨-, d, -, -, h⟩ | ⟨-, -, h⟩ := s.arrayOf_cases x <;> rw [h]

theorem sameWorld_opener (k : Ctor) (s : Store ω π) : s.SameWorld ((o.unlock k).run s).2 := by
  cases o with
  | self =>
    show ((Store.unlock k).run s).2.world = s.world
    obtain ⟨-, h⟩ | ⟨-, -, h⟩ | ⟨-, -, -, h⟩ | ⟨-, -, -, h⟩ := s.unlock_cases k <;> rw [h]
  | outside answer => rfl

/-- Searching and shaping run no body. -/
theorem findsTo_sameWorld : (factoryWith o policy : Factory (Store ω π) π).FindsTo SameWorld where
  arrayOf := sameWorld_arrayOf
  bestCtor? := (factoryWith o policy).keeps_bestCtor? (sameWorld_opener o)

variable {o policy}

/-- The best search finds declared constructors that fit. -/
theorem WellFormed.of_bestCtor? (hs : s.WellFormed) {k : Ctor}
    (h : ((factoryWith o policy).bestCtor? t request).runFrom s = (.ok (some k), s')) :
    k ∈ s.catalog.ctorsOf t ∧ ∃ f, s.catalog.fit? policy.boxing k request = some f := by
  obtain ⟨-, hexact | hfit⟩ := Factory.of_bestCtor? _ h
  · obtain ⟨hk, hparams, -⟩ := hs.exactCtor?_eq_some.mp hexact
    have hself : s.catalog.convertsAll policy.boxing request k.params = true := by
      rw [← hparams]
      exact convertsAll_self fun p hp => hs.canHold_params (hs.of_mem_ctorsOf hk).1 hp
    exact ⟨hk, .direct, Catalog.fit?_eq_some.mpr (.inl ⟨rfl, hself⟩)⟩
  · exact hfit

/-! ## Running a call -/

/-- Running a call: the body that the store has for the constructor, applied to the list. -/
theorem run_instance (s : Store ω π) (k : Ctor) (l : List (Datum π)) :
    ((factoryWith o policy).run ⟨k, l⟩).runFrom s =
      match s.bodyFor k with
      | .error e => (.error (.target e), s)
      | .ok body =>
          match (body l).runFrom s.world with
          | (.error cause, world) =>
              (.error (.target (.bodyFailed (s.catalog.nameOf k.owner) cause)), { s with world })
          | (.ok payload, world) =>
              (.ok { type := k.owner, identity := ⟨s.serial, s.made⟩, payload },
                { s with made := s.made + 1, world }) := by
  rw [Factory.run, Failable.runFrom_adapt, factoryWith_instantiate, runFrom_instantiate]
  cases s.bodyFor k with
  | error e => rfl
  | ok body =>
    cases hb : (body l).runFrom s.world with
    | mk r world =>
      cases r with
      | error cause => simp [hb]
      | ok payload => simp [hb]

theorem steady_make (o : Opener) (policy : Policy) (t : TypeHandle) (e : Entry π) :
    Steady (e.make (factoryWith o policy : Factory (Store ω π) π) t) :=
  (keepsTo_evolves o policy).make t e

end Store

end BestFit
