import BestFit.Proofs.Construction.Calls

/-!
# What constructor bodies see

The types that a caller gives need not describe the arguments at all, and the constructor is
found by the types. That a body sees conforming arguments only is therefore up to shaping
alone. Main statement: `Reachable.conforms_of_applies`.
-/
namespace BestFit.Store

variable {ω π : Type} {s s' : Store ω π} {t : TypeHandle} {e : Entry π} {k : Ctor}
  {args l : List (Datum π)} {o : Opener} {policy : Policy}

/-- A construction applies `body` to the list `l`: it finds a call of `k` with that list, and
`body` is what the store then has to run for `k`. -/
structure Applies (F : Factory (Store ω π) π) (t : TypeHandle) (e : Entry π) (s : Store ω π)
    (k : Ctor) (body : Body ω π) (l : List (Datum π)) (s' : Store ω π) : Prop where
  call : (e.call F t).runFrom s = (.ok ⟨k, l⟩, s')
  body : s'.bodyFor k = .ok body

/-- The body finds the world that there was at the beginning. -/
theorem Applies.sameWorld {body : Body ω π}
    (h : Applies (factoryWith o policy) t e s k body l s') : s'.world = s.world := by
  have hsame := (findsTo_sameWorld o policy).call t e s
  rw [h.call] at hsame
  exact hsame

/-- A construction that applies a body ends as the body does on the list, which is run once and
on the world that there was. -/
theorem Applies.make {body : Body ω π} (h : Applies (factoryWith o policy) t e s k body l s') :
    (e.make (factoryWith o policy) t).runFrom s =
      match (body l).runFrom s.world with
      | (.error cause, world) =>
          (.error (.target (.bodyFailed (s'.catalog.nameOf k.owner) cause)), { s' with world })
      | (.ok payload, world) =>
          (.ok { type := k.owner, identity := ⟨s'.serial, s'.made⟩, payload },
            { s' with made := s'.made + 1, world }) := by
  rw [Entry.make_eq, Failable.runFrom_bind, h.call, ← h.sameWorld]
  have hrun : ((factoryWith o policy).run ⟨k, l⟩).runFrom s' = _ := run_instance s' k l
  rw [h.body] at hrun
  exact hrun

/-- No body fails before it runs. -/
theorem cause?_of_bodyFor {f : TargetFailure} (h : s.bodyFor k = .error f) : f.cause? = none := by
  simp only [bodyFor] at h
  split at h
  · cases h
    rfl
  split at h
  · cases h
    rfl
  split at h
  · cases h
    rfl
  split at h
  · cases h
  · cases h
    rfl

/-- A construction that applies no body ends with an error, which is not that of a body, and the
world is as it was. -/
theorem error_of_not_applies
    (h : ¬∃ k body l s', Applies (factoryWith o policy) t e s k body l s') :
    ∃ err s', (e.make (factoryWith o policy) t).runFrom s = (.error err, s') ∧
      (∀ owner cause, err ≠ .target (.bodyFailed owner cause)) ∧ s'.world = s.world := by
  have hsame := (findsTo_sameWorld o policy).call t e s
  rw [Entry.make_eq, Failable.runFrom_bind]
  cases hcall : (e.call (factoryWith o policy) t).runFrom s with
  | mk r s' =>
    rw [hcall] at hsame
    cases r with
    | error err =>
      refine ⟨err, s', rfl, ?_, hsame⟩
      rintro owner cause rfl
      cases (factoryWith o policy).failsEarly_call t e s _ _ hcall
    | ok call =>
      cases hbody : s'.bodyFor call.ctor with
      | error f =>
        refine ⟨.target f, s', ?_, ?_, hsame⟩
        · show ((factoryWith o policy).run ⟨call.ctor, call.args⟩).runFrom s' = _
          rw [run_instance, hbody]
        · rintro owner cause hf
          cases hf
          cases cause?_of_bodyFor hbody
      | ok body => exact absurd ⟨_, body, _, s', hcall, hbody⟩ h

/-! ## Shaped lists -/

/-- An array put in the last place by gathering reaches the body as it is, and its items
conform to the component that it was gathered over. -/
theorem items_of_gather (hs : s.WellFormed) {s₁ s₂ : Store ω π} {g : List (Datum π)}
    {last x : TypeHandle} (hv : k.isVariadic = true) (hl : k.lastParam? = some last)
    (hx : s.catalog.component? last = some x) (hfill : ¬Filled k x args)
    (hgather : (source.gather k args).runFrom s = (.ok g, s₁))
    (hconform : (source.conform k g).runFrom s₁ = (.ok l, s₂)) :
    ∃ items, l.getLast? = some (.array x items) ∧ ∀ b ∈ items, s₂.Conforms x b := by
  have hsteps₁ := (steady_gather k args).steps hs hgather
  have hs₁ := hsteps₁.wellFormed hs
  have hsteps₂ := (steady_conform k g).steps hs₁ hconform
  obtain ⟨hlen, hacc⟩ := acceptsAll_of_conform hs₁ hconform
  rcases gather_eq_ok hs hv hl hx hgather with ⟨h, -⟩ | ⟨-, hfixed, items, rfl, -, hitems⟩
  · exact absurd h hfill
  · rw [← Ctor.fixedParams_append hl] at hacc
    obtain ⟨b, hb, hlast⟩ := hacc.getLast? (by simpa using hfixed)
    have href : Primitive.ofHandle? last = none := ofHandle?_of_component? hx
    rw [hlast.same href] at hb
    exact ⟨items, hb, fun a ha => (hitems a ha).mono hs₁ hsteps₂.steps⟩

/-- The list of a call found by the best search. -/
theorem conforms_of_bestCall (hs : s.WellFormed) {request : List TypeHandle}
    (h : ((factoryWith o policy).bestCall t args request).runFrom s = (.ok ⟨k, l⟩, s')) :
    List.Forall₂ s'.Conforms k.params l ∧
    ∀ x, k.isVariadic = true → k.lastParam?.bind s'.catalog.component? = some x →
      ¬Filled k x args →
      ∃ items, l.getLast? = some (.array x items) ∧ ∀ b ∈ items, s'.Conforms x b := by
  obtain ⟨s₁, g, s₂, hbest, hgather, hconform⟩ := Factory.bestCall_eq_ok _ |>.mp h
  have hsteps₁ := (steady_bestCtor? o policy t request).steps hs hbest
  have hs₁ := hsteps₁.wellFormed hs
  have hsteps₂ := (steady_gather k args).steps hs₁ hgather
  have hs₂ := hsteps₂.wellFormed hs₁
  have hsteps₃ := (steady_conform k g).steps hs₂ hconform
  refine ⟨(acceptsAll_of_conform hs₂ hconform).2.conforms, fun x hv hx hfill => ?_⟩
  have hk : s₁.Describes k :=
    hsteps₁.grows.ctor? (hs.of_mem_ctorsOf (hs.of_bestCtor? hbest).1).1
  obtain ⟨last, y, hl, hy⟩ := hs₁.exists_component hk hv
  have hlater := (hsteps₂.trans hsteps₃).grows.component? hy
  obtain rfl : y = x := by
    rw [hl, Option.bind_some, hlater] at hx
    exact Option.some.inj hx
  exact items_of_gather hs₁ hv hl hy hfill hgather hconform

/-- The list of a call found by the exact search. -/
theorem conforms_of_exactCall (hs : s.WellFormed) {request : List TypeHandle}
    (h : ((factoryWith o policy).exactCall t args request).runFrom s = (.ok ⟨k, l⟩, s')) :
    List.Forall₂ s'.Conforms k.params l := by
  obtain ⟨s₁, hexact, hconform⟩ := Factory.exactCall_eq_ok _ |>.mp h
  have hs₁ := ((steady_exactCtor? o policy t request).steps hs hexact).wellFormed hs
  exact (acceptsAll_of_conform hs₁ hconform).2.conforms

/-- The list that a body is applied to, however the construction was asked for. -/
theorem Applies.conforms (hs : s.WellFormed) {body : Body ω π}
    (h : Applies (factoryWith o policy) t e s k body l s') :
    List.Forall₂ s'.Conforms k.params l ∧
    ∀ x, e.gathers = true → k.isVariadic = true →
      k.lastParam?.bind s'.catalog.component? = some x → ¬Filled k x e.args →
      ∃ items, l.getLast? = some (.array x items) ∧ ∀ b ∈ items, s'.Conforms x b := by
  have hcall := h.call
  cases e with
  | best args =>
    obtain ⟨ts, s₀, htypes, hcall⟩ := Failable.runFrom_bind_eq_ok.mp hcall
    have hs₀ := ((steady_typesOf args).steps hs htypes).wellFormed hs
    obtain ⟨hconf, hitems⟩ := conforms_of_bestCall hs₀ hcall
    exact ⟨hconf, fun x _ => hitems x⟩
  | bestAs args request =>
    obtain ⟨hconf, hitems⟩ := conforms_of_bestCall hs hcall
    exact ⟨hconf, fun x _ => hitems x⟩
  | exact args =>
    obtain ⟨ts, s₀, htypes, hcall⟩ := Failable.runFrom_bind_eq_ok.mp hcall
    have hs₀ := ((steady_typesOf args).steps hs htypes).wellFormed hs
    refine ⟨conforms_of_exactCall hs₀ hcall, fun x hgathers => ?_⟩
    cases hgathers
  | exactAs args request =>
    refine ⟨conforms_of_exactCall hs hcall, fun x hgathers => ?_⟩
    cases hgathers

/-- Whatever is asked for and whatever types are given: the list that a body is applied to has
one argument for each parameter, each conforming to its parameter; and where trailing arguments
were gathered, the last one is an array of the declared component with conforming items. The body
is applied once, and the construction ends as it does; where none is applied, the construction
ends with an error and the world is as it was. -/
theorem Reachable.conforms_of_applies (hs : s.Reachable) (o : Opener) (policy : Policy)
    (t : TypeHandle) (e : Entry π) :
    (∀ k body l s', Applies (factoryWith o policy) t e s k body l s' →
      (e.make (factoryWith o policy) t).runFrom s =
        (match (body l).runFrom s.world with
          | (.error cause, world) =>
              (.error (.target (.bodyFailed (s'.catalog.nameOf k.owner) cause)), { s' with world })
          | (.ok payload, world) =>
              (.ok { type := k.owner, identity := ⟨s'.serial, s'.made⟩, payload },
                { s' with made := s'.made + 1, world })) ∧
      l.length = k.params.length ∧ List.Forall₂ s'.Conforms k.params l ∧
      ∀ x, e.gathers = true → k.isVariadic = true →
        k.lastParam?.bind s'.catalog.component? = some x → ¬Filled k x e.args →
        ∃ items, l.getLast? = some (.array x items) ∧ ∀ b ∈ items, s'.Conforms x b) ∧
    ((¬∃ k body l s', Applies (factoryWith o policy) t e s k body l s') →
      ∃ err s', (e.make (factoryWith o policy) t).runFrom s = (.error err, s') ∧
        (∀ owner cause, err ≠ .target (.bodyFailed owner cause)) ∧ s'.world = s.world) := by
  refine ⟨fun k body l s' h => ?_, error_of_not_applies⟩
  obtain ⟨hconf, hitems⟩ := h.conforms hs.wellFormed
  exact ⟨h.make, hconf.length_eq.symm, hconf, hitems⟩

/-- Two dogs for a kennel, given as they are: the body sees one array of animals, and sees it
once. -/
theorem conforms_of_applies_kennel :
    kennels.Reachable ∧
    ∃ l s', Applies (factoryWith .self { unlocking := false }) ⟨103⟩ (.best twoDogs) kennels
      kennelOfAny notingBody l s' ∧
    (((Entry.best twoDogs).make (factoryWith .self { unlocking := false }) ⟨103⟩).runFrom
      kennels).2.world = [[.array ⟨100⟩ twoDogs]] ∧
    l.length = kennelOfAny.params.length ∧ List.Forall₂ s'.Conforms kennelOfAny.params l ∧
    ∃ items, l.getLast? = some (.array ⟨100⟩ items) ∧ ∀ b ∈ items, s'.Conforms ⟨100⟩ b := by
  have hreach := kennels_ownReachable.reachable
  have happlies : Applies (factoryWith .self { unlocking := false }) ⟨103⟩ (.best twoDogs)
      kennels kennelOfAny notingBody [.array ⟨100⟩ twoDogs] kennels :=
    ⟨rfl, rfl⟩
  have hfill : ¬Filled kennelOfAny ⟨100⟩ twoDogs := by decide
  obtain ⟨hmake, hlen, hconf, hitems⟩ :=
    (hreach.conforms_of_applies .self { unlocking := false } ⟨103⟩ (.best twoDogs)).1
      _ _ _ _ happlies
  refine ⟨hreach, _, _, happlies, ?_, hlen, hconf, hitems ⟨100⟩ rfl rfl (by decide) hfill⟩
  rw [hmake]
  rfl

end BestFit.Store
