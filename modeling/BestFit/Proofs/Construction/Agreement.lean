import BestFit.Proofs.Construction.Outcome
import BestFit.Proofs.Shaping.Refusal

/-!
# Construction for the types of the arguments

A construction that takes the types of its own arguments finds a constructor which these types
fit, so the arguments can be shaped for it unless they are refused. With objects of plain
classes, it complains about its arguments in that one case only. Main statement:
`Reachable.make_complains_iff`.
-/
namespace BestFit

namespace Factory

variable {σ π : Type} (F : Factory σ π) {t : TypeHandle} {s s' : σ}

/-- The errors of a run are those of the maker. -/
theorem exists_target_of_run {call : Call π} {e : FactoryError}
    (h : (F.run call).runFrom s = (.error e, s')) : ∃ f, e = .target f := by
  rw [run, Failable.runFrom_adapt] at h
  cases hr : (F.instantiate call.ctor call.args).runFrom s with
  | mk r s₁ =>
    rw [hr] at h
    cases r with
    | ok a => cases h
    | error f =>
      cases h
      exact ⟨f, rfl⟩

/-- A run does not complain about the arguments. -/
theorem run_ne_badArguments (call : Call π) (owner : String) (cause : ArgumentError) :
    (F.run call).runFrom s ≠ (.error (.badArguments owner cause), s') := by
  intro h
  obtain ⟨f, hf⟩ := F.exists_target_of_run h
  cases hf

/-- A construction complains about the arguments exactly if the search finds a constructor and
shaping fails for it, given that the search itself does not complain about arguments. -/
theorem makeBy_complains_iff {request : List TypeHandle} {cause : ArgumentError}
    {find : Failable σ FactoryError (Option Ctor)}
    {shape : Ctor → Failable σ ArgumentError (List (Datum π))}
    (hfind : ∀ owner s', find.runFrom s ≠ (.error (.badArguments owner cause), s')) :
    (∃ owner s', (F.makeBy t request find shape).runFrom s =
        (.error (.badArguments owner cause), s')) ↔
      ∃ k s₁ s₂, find.runFrom s = (.ok (some k), s₁) ∧
        (shape k).runFrom s₁ = (.error cause, s₂) := by
  rw [makeBy, Failable.runFrom_bind]
  cases hr : find.runFrom s with
  | mk r s₁ =>
    rcases r with e | _ | k
    · have hne : ∀ owner, e ≠ .badArguments owner cause := fun owner he =>
        hfind owner s₁ (he ▸ hr)
      simp [hne]
    · simp [Failable.runFrom_bind, runFrom_found]
    · simp only [Failable.runFrom_bind, runFrom_found, runFrom_shaped]
      cases hshape : (shape k).runFrom s₁ with
      | mk rs s₂ =>
        cases rs with
        | error e => simp [hshape]
        | ok l =>
          -- what was shaped is run, and a run does not complain about arguments
          simp [hshape, F.run_ne_badArguments]

end Factory

namespace Store

variable {ω π : Type} {s s' : Store ω π} {t : TypeHandle} {k : Ctor} {args : List (Datum π)}
  {o : Opener} {policy : Policy}

/-- The best search for the types of the arguments finds `k`, and leaves `s'`. -/
def Resolves (F : Factory (Store ω π) π) (t : TypeHandle) (args : List (Datum π)) (s : Store ω π)
    (k : Ctor) (s' : Store ω π) : Prop :=
  (F.bestCtor? t ((source.typesOf args).run s).1).runFrom ((source.typesOf args).run s).2 =
    (.ok (some k), s')

/-- The types of the arguments fit the constructor that is found for them. -/
theorem Resolves.fitting (hs : s.WellFormed) (hargs : ∀ a ∈ args, s.Plain a)
    (h : Resolves (factoryWith o policy) t args s k s') :
    s'.WellFormed ∧ s'.Describes k ∧ ∃ request, List.Forall₂ s'.Presents args request ∧
      s'.catalog.Fits policy.boxing k request := by
  obtain ⟨request, s₁, hrun, hsteps₁, hans⟩ := hs.run_typesOf args
  rw [Resolves, hrun] at h
  have hs₁ := hsteps₁.wellFormed hs
  have hsteps₂ := (steady_bestCtor? o policy t request).steps hs₁ h
  have hs' := hsteps₂.wellFormed hs₁
  obtain ⟨hk, f, hfit⟩ := hs₁.of_bestCtor? h
  have hplain : ∀ a ∈ args, s₁.Plain a := fun a ha => (hargs a ha).mono hsteps₁.grows
  have hpresents := presents_of_answered hs₁ hans hplain (Catalog.convertsAll_formals hfit)
  exact ⟨hs', hsteps₂.grows.ctor? (hs₁.of_mem_ctorsOf hk).1, request,
    forall₂_presents_mono hsteps₂.grows hpresents,
    hsteps₂.grows.fits hs₁ hs' (Catalog.fits_of_fit? hfit)⟩

/-- The arguments are shaped for the constructor that is found for their types exactly if it
does not refuse them. -/
theorem Resolves.shape_iff (hs : s.WellFormed) (hargs : ∀ a ∈ args, s.Plain a)
    (h : Resolves (factoryWith o policy) t args s k s') :
    (∃ l s'', (source.shape args k).runFrom s' = (.ok l, s'')) ↔
      ∀ x found, ¬s'.Refuses k args x found := by
  obtain ⟨hs', hk, request, hpresents, hfit⟩ := h.fitting hs hargs
  constructor
  · rintro ⟨l, s'', hok⟩ x found hrefuses
    obtain ⟨s₃, herror⟩ := shape_of_refuses hs' hrefuses
    rw [hok] at herror
    cases herror
  · exact exists_shape hs' hk hpresents hfit

/-- How shaping fails for the constructor that is found: at an array in the last place. -/
theorem Resolves.error_iff (hs : s.WellFormed) (hargs : ∀ a ∈ args, s.Plain a)
    (h : Resolves (factoryWith o policy) t args s k s') {cause : ArgumentError} :
    (∃ s'', (source.shape args k).runFrom s' = (.error cause, s'')) ↔
      ∃ x found, s'.Refuses k args x found ∧ cause = .unconvertible k.fixedParams.length
        (s'.catalog.nameOf x) (s'.catalog.nameOf found) := by
  have hs' := (h.fitting hs hargs).1
  constructor
  · rintro ⟨s'', hcause⟩
    have hno : ¬∀ x found, ¬s'.Refuses k args x found := by
      intro hno
      obtain ⟨l, s₃, hok⟩ := (h.shape_iff hs hargs).mpr hno
      rw [hcause] at hok
      cases hok
    obtain ⟨x, found, hrefuses⟩ : ∃ x found, s'.Refuses k args x found := by
      simpa using hno
    obtain ⟨s₃, herror⟩ := shape_of_refuses hs' hrefuses
    rw [hcause] at herror
    cases herror
    exact ⟨x, found, hrefuses, rfl⟩
  · rintro ⟨x, found, hrefuses, rfl⟩
    exact shape_of_refuses hs' hrefuses

/-- Dogs are instances of a plain class. -/
theorem plain_twoDogs : ∀ a ∈ twoDogs, kennels.Plain a := by
  have hdog : kennels.IsPlainClass ⟨101⟩ := ⟨⟨_, rfl, rfl⟩, by decide⟩
  intro a ha i hi
  subst hi
  rcases List.mem_pair.mp ha with h | h <;> cases h <;> exact hdog

/-- A construction for the types of its arguments, which hold objects of plain classes only,
shapes them for the constructor that it finds unless that refuses them, and complains about
them exactly in that case. -/
theorem Reachable.make_complains_iff (hs : s.Reachable) (hargs : ∀ a ∈ args, s.Plain a) :
    let F := factoryWith o policy
    (∀ k s', Resolves F t args s k s' →
      ((∃ l s'', (source.shape args k).runFrom s' = (.ok l, s'')) ↔
        ∀ x found, ¬s'.Refuses k args x found)) ∧
    ∀ cause, (∃ owner s', (F.make t args).runFrom s = (.error (.badArguments owner cause), s')) ↔
      ∃ k s' x found, Resolves F t args s k s' ∧ s'.Refuses k args x found ∧
        cause = .unconvertible k.fixedParams.length
          (s'.catalog.nameOf x) (s'.catalog.nameOf found) := by
  intro F
  have hwf := hs.wellFormed
  refine ⟨fun k s' h => h.shape_iff hwf hargs, fun cause => ?_⟩
  have hmake : (F.make t args).runFrom s =
      (F.makeAs t args ((source.typesOf args).run s).1).runFrom
        ((source.typesOf args).run s).2 := rfl
  have hfind : ∀ owner s', (F.bestCtor? t ((source.typesOf args).run s).1).runFrom
      ((source.typesOf args).run s).2 ≠ (.error (.badArguments owner cause), s') := by
    intro owner s' h
    rcases F.error_of_bestCtor? h with he | he <;> cases he
  rw [hmake, Factory.makeAs_eq, F.makeBy_complains_iff hfind]
  constructor
  · rintro ⟨k, s', s'', hresolves, hcause⟩
    obtain ⟨x, found, hrefuses, rfl⟩ :=
      (Resolves.error_iff hwf hargs hresolves).mp ⟨s'', hcause⟩
    exact ⟨k, s', x, found, hresolves, hrefuses, rfl⟩
  · rintro ⟨k, s', x, found, hresolves, hrefuses, rfl⟩
    obtain ⟨s'', hcause⟩ := (hresolves.error_iff hwf hargs).mpr ⟨x, found, hrefuses, rfl⟩
    exact ⟨k, s', s'', hresolves, hcause⟩

/-- Two dogs for a kennel, without unlocking: the constructor for any number of animals is
found, and the dogs are gathered for it. -/
theorem make_complains_iff_kennel :
    kennels.Reachable ∧ (∀ a ∈ twoDogs, kennels.Plain a) ∧
    Resolves (factoryWith .self { unlocking := false }) ⟨103⟩ twoDogs kennels kennelOfAny kennels ∧
    ((∃ l s'', (source.shape twoDogs kennelOfAny).runFrom kennels = (.ok l, s'')) ↔
      ∀ x found, ¬kennels.Refuses kennelOfAny twoDogs x found) := by
  have hreach := kennels_ownReachable.reachable
  have hresolves : Resolves (factoryWith .self { unlocking := false }) ⟨103⟩ twoDogs kennels
      kennelOfAny kennels := rfl
  exact ⟨hreach, plain_twoDogs, hresolves,
    (hreach.make_complains_iff plain_twoDogs).1 kennelOfAny kennels hresolves⟩

/-- An array of dogs, even an empty one, for a kennel: its type fits the array of animals, so
the constructor for any number of animals is found, but the array is taken for an animal. -/
theorem make_complains_kennel :
    kennels.Reachable ∧ (∃ d, kennels.decl? ⟨103⟩ = some d ∧ d.shape = .classType) ∧
    (∀ a ∈ [Datum.array ⟨101⟩ []], kennels.Plain a) ∧
    (∃ s', Resolves (factory {}) ⟨103⟩ [.array ⟨101⟩ []] kennels kennelOfAny s' ∧
      ¬∃ (l : List (Datum Nat)) (s'' : Store Journal Nat),
        (source.shape [.array ⟨101⟩ []] kennelOfAny).runFrom s' = (.ok l, s'')) ∧
    (((factory {}).make ⟨103⟩ [.array ⟨101⟩ []]).runFrom kennels).1 =
      .error (.badArguments "Kennel" (.unconvertible 0 "Animal" "Dog[]")) := by
  refine ⟨kennels_ownReachable.reachable, ⟨_, rfl, rfl⟩, ?_, ⟨_, rfl, ?_⟩, rfl⟩
  · intro a ha i hi
    subst hi
    cases List.mem_singleton.mp ha
  · rintro ⟨l, s'', h⟩
    cases h

end Store

end BestFit
