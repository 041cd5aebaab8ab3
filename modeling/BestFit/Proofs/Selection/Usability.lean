import BestFit.Factory.Selection
import BestFit.Proofs.Selection.Specificity
import BestFit.Proofs.Store.Steady

/-!
# Selection on a store

What the selection of a constructor does to a store that plays the parts of type source
and maker. Unlocking is up to an `Opener`: the store itself, or someone outside. While
descriptions are true, the answers do not depend on the order in which candidates are tried
(`run_usableAmong`), and the store that is left differs only in what was unlocked.
-/
namespace BestFit

/-- Who decides on unlocking: the store itself, or someone outside who does not touch it. -/
inductive Opener where
  | self
  | outside (answer : Ctor → Bool)

namespace Opener

variable {ω π : Type}

/-- Every attempt fails. -/
def denyAll : Opener := .outside fun _ => false

/-- The attempt to unlock a constructor. -/
def unlock : Opener → Ctor → StateM (Store ω π) Bool
  | self, k => Store.unlock k
  | outside answer, k => return answer k

/-- Whether an attempt succeeds, provided the description is true. -/
def grants : Opener → Ctor → Bool
  | self, k => !k.isSealed
  | outside answer, k => answer k

end Opener

/-- Whether a constructor is exposed, or unlocking is tried and succeeds. -/
def Catalog.mayUse (c : Catalog) (o : Opener) (policy : Policy) (k : Ctor) : Bool :=
  c.exposes k || (policy.unlocking && o.grants k)

namespace Factory

variable {σ π : Type} (F : Factory σ π)

/-- Nothing is looked for in a type that is not there. -/
theorem runFrom_catalogWith (t : TypeHandle) (s : σ) :
    (F.catalogWith t).runFrom s =
      (if t = .absent then .error .noType
        else if (F.source.catalog s).contains t = false then .error (.unknownType t)
        else .ok (F.source.catalog s), s) := by
  rw [catalogWith, Failable.runFrom_bind, Failable.runFrom_lift, TypeSource.run_view]
  by_cases ht : t = .absent
  · simp [ht, TypeHandle.isPresent]
  · cases hc : (F.source.catalog s).contains t <;> simp [ht, TypeHandle.isPresent, hc]

/-- A search starts by refusing handles without a type. -/
theorem runFrom_catalogWith_bind {α : Type} (t : TypeHandle)
    (f : Catalog → Failable σ FactoryError α) (s : σ) :
    (F.catalogWith t >>= f).runFrom s =
      if t = .absent then (.error .noType, s)
      else if (F.source.catalog s).contains t = false then (.error (.unknownType t), s)
      else (f (F.source.catalog s)).runFrom s := by
  rw [Failable.runFrom_bind, runFrom_catalogWith]
  by_cases ht : t = .absent
  · simp [ht]
  · cases hc : (F.source.catalog s).contains t <;> simp [ht]

section Known

variable {t : TypeHandle} {s : σ} (ht : t ≠ .absent)
  (hc : (F.source.catalog s).contains t = true) (request : List TypeHandle)
include ht hc

/-- The exact search on a type that is there. -/
theorem runFrom_exactCtor? :
    (F.exactCtor? t request).runFrom s =
      (.ok ((F.source.catalog s).exactCtor? t request), s) := by
  rw [exactCtor?, runFrom_catalogWith_bind]
  simp [ht, hc]

/-- The best search, where there is an exact constructor. -/
theorem runFrom_bestCtor?_of_exact {k : Ctor}
    (hk : (F.source.catalog s).exactCtor? t request = some k) :
    (F.bestCtor? t request).runFrom s =
      (.ok (some k), if F.policy.unlocking then ((F.unlock k).run s).2 else s) := by
  rw [bestCtor?, runFrom_catalogWith_bind]
  simp only [ht, hc, if_false, Bool.true_eq_false, hk]
  cases F.policy.unlocking with
  | false => rfl
  | true =>
    rw [if_pos rfl, if_pos rfl]
    rfl

/-- The best search, where there is none. -/
theorem runFrom_bestCtor?_of_not_exact
    (hk : (F.source.catalog s).exactCtor? t request = none) :
    (F.bestCtor? t request).runFrom s =
      let c := F.source.catalog s
      let r := (F.usableAmong c (c.candidates F.policy.boxing t request)).run s
      (.ok ((c.mostSpecific? F.policy.boxing r.1).map Candidate.ctor), r.2) := by
  rw [bestCtor?, runFrom_catalogWith_bind]
  simp only [ht, hc, if_false, Bool.true_eq_false, hk]
  rw [Failable.runFrom_bind, Failable.runFrom_lift]
  rfl

end Known

theorem run_usableAmong_cons (c : Catalog) (k : Candidate) (ks : List Candidate) (s : σ) :
    (F.usableAmong c (k :: ks)).run s =
      (let r := (F.usable c k.ctor).run s
       let r' := (F.usableAmong c ks).run r.2
       (if r.1 then k :: r'.1 else r'.1, r'.2)) := rfl

/-- No candidate comes in by being tried. -/
theorem mem_of_mem_usableAmong {c : Catalog} {ks : List Candidate} {s : σ} {k : Candidate}
    (h : k ∈ ((F.usableAmong c ks).run s).1) : k ∈ ks := by
  induction ks generalizing s with
  | nil => cases h
  | cons j ks ih =>
    rw [run_usableAmong_cons] at h
    simp only at h
    split at h
    · rcases List.mem_cons.mp h with rfl | h
      · exact List.mem_cons_self
      · exact List.mem_cons_of_mem _ (ih h)
    · exact List.mem_cons_of_mem _ (ih h)

/-- The ways in which the best search ends, each with its result and the state left behind. -/
inductive BestSearch (F : Factory σ π) (t : TypeHandle) (request : List TypeHandle) (s : σ) :
    Except FactoryError (Option Ctor) × σ → Prop
  | noType (ht : t = .absent) : BestSearch F t request s (.error .noType, s)
  | unknownType (ht : t ≠ .absent) (hc : (F.source.catalog s).contains t = false) :
      BestSearch F t request s (.error (.unknownType t), s)
  | exact {k : Ctor} (ht : t ≠ .absent) (hc : (F.source.catalog s).contains t = true)
      (hk : (F.source.catalog s).exactCtor? t request = some k) :
      BestSearch F t request s
        (.ok (some k), if F.policy.unlocking then ((F.unlock k).run s).2 else s)
  | among {ks : List Candidate} {s' : σ} (ht : t ≠ .absent)
      (hc : (F.source.catalog s).contains t = true)
      (hk : (F.source.catalog s).exactCtor? t request = none)
      (hks : (F.usableAmong (F.source.catalog s)
        ((F.source.catalog s).candidates F.policy.boxing t request)).run s = (ks, s')) :
      BestSearch F t request s
        (.ok (((F.source.catalog s).mostSpecific? F.policy.boxing ks).map Candidate.ctor), s')

theorem bestSearch (t : TypeHandle) (request : List TypeHandle) (s : σ) :
    BestSearch F t request s ((F.bestCtor? t request).runFrom s) := by
  by_cases ht : t = .absent
  · rw [bestCtor?, runFrom_catalogWith_bind, if_pos ht]
    exact .noType ht
  cases hc : (F.source.catalog s).contains t with
  | false =>
    rw [bestCtor?, runFrom_catalogWith_bind, if_neg ht, if_pos hc]
    exact .unknownType ht hc
  | true =>
    cases hexact : (F.source.catalog s).exactCtor? t request with
    | some k =>
      rw [F.runFrom_bestCtor?_of_exact ht hc request hexact]
      exact .exact ht hc hexact
    | none =>
      rw [F.runFrom_bestCtor?_of_not_exact ht hc request hexact]
      exact .among ht hc hexact rfl

/-- The answer of the best search is the exact constructor or one that fits. -/
theorem of_bestCtor? {t : TypeHandle} {request : List TypeHandle} {s s' : σ} {k : Ctor}
    (h : (F.bestCtor? t request).runFrom s = (.ok (some k), s')) :
    (F.source.catalog s).contains t = true ∧
      ((F.source.catalog s).exactCtor? t request = some k ∨
        k ∈ (F.source.catalog s).ctorsOf t ∧
          ∃ f, (F.source.catalog s).fit? F.policy.boxing k request = some f) := by
  have hsearch := F.bestSearch t request s
  rw [h] at hsearch
  generalize hr : (Except.ok (some k) : Except FactoryError (Option Ctor)) = r at hsearch
  cases hsearch with
  | noType | unknownType => cases hr
  | exact _ hc hk =>
    cases hr
    exact ⟨hc, .inl hk⟩
  | @among ks _ _ hc _ hks =>
    obtain rfl : _ = ks := congrArg Prod.fst hks
    obtain ⟨b, hb, rfl⟩ := Option.map_eq_some_iff.mp (Except.ok.inj hr).symm
    have hmem := F.mem_of_mem_usableAmong (Catalog.mem_of_mostSpecific? _ hb)
    obtain ⟨hk, f, hf, -⟩ := Catalog.mem_candidates.mp hmem
    exact ⟨hc, .inr ⟨hk, f, hf⟩⟩

/-- The best search complains about the type that it searches, and about nothing else. -/
theorem error_of_bestCtor? {t : TypeHandle} {request : List TypeHandle} {s s' : σ}
    {e : FactoryError} (h : (F.bestCtor? t request).runFrom s = (.error e, s')) :
    e = .noType ∨ e = .unknownType t := by
  have hsearch := F.bestSearch t request s
  rw [h] at hsearch
  cases hsearch with
  | noType => exact .inl rfl
  | unknownType => exact .inr rfl

end Factory

namespace Store

variable {ω π : Type} {s s' : Store ω π}

/-- The factory in which a store plays every part but that of unlocking. -/
def factoryWith (o : Opener) (policy : Policy) : Factory (Store ω π) π :=
  { factory policy with unlock := o.unlock }

theorem factory_eq (policy : Policy) :
    (factory policy : Factory (Store ω π) π) = factoryWith .self policy := rfl

section Parts

variable (o : Opener) (policy : Policy)

@[simp] theorem factoryWith_source :
    (factoryWith o policy : Factory (Store ω π) π).source = source := rfl

@[simp] theorem factoryWith_unlock :
    (factoryWith o policy : Factory (Store ω π) π).unlock = o.unlock := rfl

@[simp] theorem factoryWith_instantiate :
    (factoryWith o policy : Factory (Store ω π) π).instantiate = instantiate := rfl

@[simp] theorem factoryWith_policy :
    (factoryWith o policy : Factory (Store ω π) π).policy = policy := rfl

end Parts

/-- Whether the store would run a constructor, abstract owners aside. -/
def Lets (s : Store ω π) (k : Ctor) : Prop :=
  s.catalog.exposes k = true ∨ k.handle ∈ s.unlocked

theorem lets_iff {k : Ctor} :
    s.Lets k ↔ (s.catalog.exposes k || s.isUnlocked k.handle) = true := by
  rw [Lets, Bool.or_eq_true, isUnlocked_iff]

/-- What is locked may run only if it is exposed. -/
theorem lets_of_locked {k : Ctor} (h : s.isUnlocked k.handle = false) :
    s.Lets k ↔ s.catalog.exposes k = true := by
  rw [lets_iff, h, Bool.or_false]

/-- A later store that knows no other types and constructors. -/
structure Opens (s s' : Store ω π) : Prop where
  steps : s.OwnSteps s'
  catalog : s'.catalog = s.catalog

namespace Opens

theorem refl (s : Store ω π) : s.Opens s := ⟨.refl s, rfl⟩

theorem trans {s'' : Store ω π} (h : s.Opens s') (h' : s'.Opens s'') : s.Opens s'' :=
  ⟨h.steps.trans h'.steps, h'.catalog.trans h.catalog⟩

variable (h : s.Opens s')
include h

theorem describes {k : Ctor} (hk : s.Describes k) : s'.Describes k := h.steps.grows.ctor? hk

theorem lets {k : Ctor} (hk : s.Lets k) : s'.Lets k := by
  rcases hk with hk | hk
  · exact .inl (by rwa [h.catalog])
  · exact .inr (h.steps.grows.unlocked hk)

end Opens

/-! ## Any store -/

section Steps

variable (o : Opener) (policy : Policy) (c : Catalog)

theorem steps_opener {k : Ctor} (hk : s.Describes k) : s.OwnSteps ((o.unlock k).run s).2 := by
  cases o with
  | self => exact .unlock hk
  | outside answer => exact .refl s

theorem steps_usable {k : Ctor} (hk : s.Describes k) :
    s.OwnSteps (((factoryWith o policy).usable c k).run s).2 := by
  unfold Factory.usable
  split
  · exact .refl s
  · split
    · exact steps_opener o hk
    · exact .refl s

theorem steps_usableAmong {ks : List Candidate} (hks : ∀ k ∈ ks, s.Describes k.ctor) :
    s.OwnSteps (((factoryWith o policy).usableAmong c ks).run s).2 := by
  induction ks generalizing s with
  | nil => exact .refl s
  | cons k ks ih =>
    rw [Factory.run_usableAmong_cons]
    have hfirst := steps_usable o policy c (hks k List.mem_cons_self)
    exact hfirst.trans (ih fun j hj => hfirst.grows.ctor? (hks j (List.mem_cons_of_mem _ hj)))

end Steps

/-! ## What unlocking comes to -/

/-- The opener as one particular store bears it out: what that store unlocked before, it
grants whatever the description says. -/
def settled (s : Store ω π) : Opener → Opener
  | .self => .outside fun k => s.isUnlocked k.handle || !k.isSealed
  | .outside answer => .outside answer

/-- True descriptions unlock nothing sealed. -/
theorem OwnSteps.unlocked_of_describes (h : s.OwnSteps s') {k : Ctor} (hk : s.Describes k)
    (hu : k.handle ∈ s'.unlocked) : k.handle ∈ s.unlocked ∨ k.isSealed = false := by
  -- carried along the run together with the description, which the run keeps
  have hinv := h.invariant
    (P := fun s₁ => s₁.Describes k ∧
      (k.handle ∈ s₁.unlocked → k.handle ∈ s.unlocked ∨ k.isSealed = false)) ?_ ⟨hk, .inl⟩
  · exact hinv.2 hu
  · rintro s₁ op hop ⟨hdesc, ih⟩
    refine ⟨(Grows.apply s₁ op).ctor? hdesc, fun hmem => ?_⟩
    rcases unlocked_apply hmem with hmem | ⟨j, rfl, hj, hsealed⟩
    · exact ih hmem
    · have hjk : s₁.Describes j := hop
      rw [Describes, ← hj] at hjk
      obtain rfl := Option.some.inj (hdesc.symm.trans hjk)
      exact .inr hsealed

/-- Requests on true descriptions leave what is granted for them as it is. -/
theorem OwnSteps.grants_settled (h : s.OwnSteps s') (o : Opener) {k : Ctor}
    (hk : s.Describes k) : (s'.settled o).grants k = (s.settled o).grants k := by
  cases o with
  | outside answer => rfl
  | self =>
    show (s'.isUnlocked k.handle || !k.isSealed) = (s.isUnlocked k.handle || !k.isSealed)
    rw [Bool.eq_iff_iff]
    simp only [Bool.or_eq_true, isUnlocked_iff, Bool.not_eq_true']
    constructor
    · rintro (hu | hsealed)
      · exact h.unlocked_of_describes hk hu
      · exact .inr hsealed
    · exact Or.imp_left h.grows.unlocked

/-- An attempt to unlock what the store describes. Where the store itself decides, what it
grants may run afterwards. -/
theorem run_opener (o : Opener) {k : Ctor} (hk : s.Describes k) :
    ∃ s', (o.unlock k).run s = ((s.settled o).grants k, s') ∧ s.Opens s' ∧
      (o = .self → (s.settled o).grants k = true → s'.Lets k) := by
  cases o with
  | outside answer =>
    refine ⟨s, rfl, .refl s, ?_⟩
    intro h
    cases h
  | self =>
    obtain ⟨s', hrun, hcat, hmem⟩ := unlock_described hk
    have hsteps := steps_opener .self hk
    rw [show (Opener.self.unlock k).run s = _ from hrun] at hsteps
    exact ⟨s', hrun, ⟨hsteps, hcat⟩, fun _ hg => .inr (hmem hg)⟩

/-- Whether a constructor may be used, asked of a store in the course of a search. -/
theorem run_usable (o : Opener) (policy : Policy) {k : Ctor} (hk : s.Describes k) :
    ∃ s', ((factoryWith o policy).usable s.catalog k).run s =
        (s.catalog.mayUse (s.settled o) policy k, s') ∧ s.Opens s' ∧
      (o = .self → s.catalog.mayUse (s.settled o) policy k = true → s'.Lets k) := by
  unfold Factory.usable Catalog.mayUse
  cases he : s.catalog.exposes k with
  | true => exact ⟨s, rfl, .refl s, fun _ _ => .inl he⟩
  | false =>
    cases hu : policy.unlocking with
    | false =>
      refine ⟨s, ?_, .refl s, by simp⟩
      rw [factoryWith_policy, hu]
      rfl
    | true =>
      obtain ⟨s', hrun, hopens, hlets⟩ := run_opener o hk
      refine ⟨s', ?_, hopens, by simpa using hlets⟩
      simpa [hu] using hrun

/-- The candidates that may be used are those of which that is true at the start, in
whatever order they are tried. -/
theorem run_usableAmong (o : Opener) (policy : Policy) {ks : List Candidate}
    (hks : ∀ k ∈ ks, s.Describes k.ctor) :
    ∃ s', ((factoryWith o policy).usableAmong s.catalog ks).run s =
        (ks.filter fun k => s.catalog.mayUse (s.settled o) policy k.ctor, s') ∧ s.Opens s' ∧
      (o = .self → ∀ k ∈ ks, s.catalog.mayUse (s.settled o) policy k.ctor = true →
        s'.Lets k.ctor) := by
  induction ks generalizing s with
  | nil => exact ⟨s, rfl, .refl s, fun _ => by simp⟩
  | cons k ks ih =>
    have hrest : ∀ j ∈ ks, s.Describes j.ctor := fun j hj => hks j (List.mem_cons_of_mem _ hj)
    obtain ⟨s₁, hrun, hopens, hlets⟩ := run_usable o policy (hks k List.mem_cons_self)
    obtain ⟨s₂, hrun₂, hopens₂, hlets₂⟩ := ih fun j hj => hopens.describes (hrest j hj)
    -- the first attempt changed nothing for the rest, which is judged as at the start
    have hsame : ∀ j ∈ ks, s₁.catalog.mayUse (s₁.settled o) policy j.ctor =
        s.catalog.mayUse (s.settled o) policy j.ctor := fun j hj => by
      rw [Catalog.mayUse, Catalog.mayUse, hopens.catalog,
        hopens.steps.grants_settled o (hrest j hj)]
    rw [List.filter_congr hsame, hopens.catalog] at hrun₂
    refine ⟨s₂, ?_, hopens.trans hopens₂, fun ho j hj hmay => ?_⟩
    · rw [Factory.run_usableAmong_cons, hrun]
      simp only [hrun₂, List.filter_cons]
    · rcases List.mem_cons.mp hj with rfl | hj
      · exact hopens₂.lets (hlets ho hmay)
      · exact hlets₂ ho j hj ((hsame j hj).trans hmay)

/-- On a store reached by true descriptions, the description alone decides. -/
theorem OwnReachable.grants_settled (hs : s.OwnReachable) (o : Opener) {k : Ctor}
    (hk : s.Describes k) : (s.settled o).grants k = o.grants k := by
  cases o with
  | outside answer => rfl
  | self =>
    show (s.isUnlocked k.handle || !k.isSealed) = !k.isSealed
    cases hsealed : k.isSealed with
    | true => rw [hs.locked_of_sealed hk hsealed, Bool.false_or]
    | false => rw [Bool.not_false, Bool.or_true]

theorem OwnReachable.run_usableAmong (hs : s.OwnReachable) (o : Opener) (policy : Policy)
    {ks : List Candidate} (hks : ∀ k ∈ ks, s.Describes k.ctor) :
    ∃ s', ((factoryWith o policy).usableAmong s.catalog ks).run s =
        (ks.filter fun k => s.catalog.mayUse o policy k.ctor, s') ∧ s.Opens s' ∧
      (o = .self → ∀ k ∈ ks, s.catalog.mayUse o policy k.ctor = true → s'.Lets k.ctor) := by
  have hsame : ∀ k ∈ ks, s.catalog.mayUse (s.settled o) policy k.ctor =
      s.catalog.mayUse o policy k.ctor := fun k hk => by
    rw [Catalog.mayUse, Catalog.mayUse, hs.grants_settled o (hks k hk)]
  obtain ⟨s', hrun, hopens, hlets⟩ := Store.run_usableAmong o policy hks
  rw [List.filter_congr hsame] at hrun
  exact ⟨s', hrun, hopens, fun ho k hk hmay => hlets ho k hk ((hsame k hk).trans hmay)⟩

end Store

end BestFit
