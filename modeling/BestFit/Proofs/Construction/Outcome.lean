import BestFit.Proofs.Construction.Arguments

/-!
# How constructions end

A construction searches, shapes and runs. Which of these steps fails, and how, decides what
is reported: `Concludes` lists the endings, each with the condition under which it comes
about, and with what becomes of the world that the bodies work on: it is left alone by every
ending but those of a body, which is applied once. Access is decided twice, by the search and
by the store that runs the constructor; what the search finds on a store reached by true
descriptions, the store lets run, so the ending `inaccessible` never comes about. Main
statement: `OwnReachable.concludes_make`.
-/
namespace BestFit

namespace Factory

variable {σ π : Type} (F : Factory σ π)

/-- Errors of a sequence are reported like errors of its parts. -/
theorem shaped_bind {α β : Type} (t : TypeHandle) (x : Failable σ ArgumentError α)
    (f : α → Failable σ ArgumentError β) :
    F.shaped t (x >>= f) = (do F.shaped t (f (← F.shaped t x))) := by
  refine Failable.ext fun s => ?_
  rw [runFrom_shaped, Failable.runFrom_bind, Failable.runFrom_bind, runFrom_shaped]
  cases hx : x.runFrom s with
  | mk r s' =>
    cases r with
    | error e => rfl
    | ok a => exact (F.runFrom_shaped t (f a) s').symm

/-- A construction in terms of its search and of its shaping. -/
def makeBy (t : TypeHandle) (request : List TypeHandle)
    (find : Failable σ FactoryError (Option Ctor))
    (shape : Ctor → Failable σ ArgumentError (List (Datum π))) :
    Failable σ FactoryError (Instance π) := do
  let k ← F.found t request (← find)
  let l ← F.shaped t (shape k)
  F.run ⟨k, l⟩

theorem makeAs_eq (t : TypeHandle) (args : List (Datum π)) (request : List TypeHandle) :
    F.makeAs t args request =
      F.makeBy t request (F.bestCtor? t request) (F.source.shape args) := by
  simp only [makeAs, bestCall, makeBy, TypeSource.shape, shaped_bind, bind_assoc, pure_bind]

theorem makeExactAs_eq (t : TypeHandle) (args : List (Datum π)) (request : List TypeHandle) :
    F.makeExactAs t args request =
      F.makeBy t request (F.exactCtor? t request) (F.source.conform · args) := by
  simp only [makeExactAs, exactCall, makeBy, bind_assoc, pure_bind]

end Factory

namespace Store

variable {ω π : Type} {s s' : Store ω π} {t : TypeHandle} {request : List TypeHandle}
  {args : List (Datum π)} {k : Ctor}

/-! ## Access -/

/-- Whether a declared type has no instances of its own. -/
def IsAbstract (s : Store ω π) (t : TypeHandle) : Prop :=
  ∃ d, s.decl? t = some d ∧ d.isAbstract = true

/-- What may run goes on being allowed to. -/
theorem Lets.mono (hs : s.WellFormed) (h : s.OwnSteps s')
    (howner : s.catalog.contains k.owner = true) (hk : s.Lets k) : s'.Lets k := by
  rcases hk with hk | hk
  · refine .inl ?_
    rw [h.grows.exposes_eq hs howner]
    exact hk
  · exact .inr (h.grows.unlocked hk)

/-- The store runs what it describes and lets run, unless the owner is abstract. -/
theorem bodyFor_of_lets {e : StoredCtor ω π} {d : TypeDecl} (he : s.entry? k.handle = some e)
    (howner : e.ctor.owner = k.owner) (hd : s.decl? k.owner = some d) (hk : s.Lets k) :
    s.bodyFor k =
      if d.isAbstract then .error (.abstractType (s.catalog.nameOf k.owner)) else .ok e.body := by
  simp only [bodyFor, he, howner, ne_eq, not_true_eq_false, if_false, catalog_decl?, hd,
    Option.all_some, lets_iff.mp hk, if_true]

/-- A declared constructor that the store lets run is run by every later store, unless its
type is abstract. -/
theorem WellFormed.bodyFor_of_declared (hs : s.WellFormed) {s₁ s₂ : Store ω π}
    (hk : k ∈ s.catalog.ctorsOf t) (hsteps₁ : s.OwnSteps s₁) (hsteps₂ : s₁.OwnSteps s₂)
    (hlets : s₁.Lets k) :
    ∃ e, s.entry? k.handle = some e ∧
      (s.IsAbstract t ∧ s₂.bodyFor k = .error (.abstractType (s.catalog.nameOf t)) ∨
        ¬s.IsAbstract t ∧ s₂.bodyFor k = .ok e.body) := by
  obtain ⟨hdesc, rfl⟩ := hs.of_mem_ctorsOf hk
  obtain ⟨e, he, rfl⟩ := Option.map_eq_some_iff.mp hdesc
  obtain ⟨d, hd, -⟩ := mem_ctorsOf.mp hk
  have hc : s.catalog.contains e.ctor.owner = true := contains_iff.mpr ⟨d, hd⟩
  have hgrows := (hsteps₁.trans hsteps₂).grows
  have hlater := hlets.mono (hsteps₁.wellFormed hs) hsteps₂ (hsteps₁.grows.contains hc)
  have hbody := bodyFor_of_lets (hgrows.entry? he) rfl (hgrows.decl? hd) hlater
  rw [hgrows.nameOf_eq hc] at hbody
  have habstract : s.IsAbstract e.ctor.owner ↔ d.isAbstract = true := by simp [IsAbstract, hd]
  refine ⟨e, he, ?_⟩
  cases hda : d.isAbstract with
  | true =>
    rw [hda, if_pos rfl] at hbody
    exact .inl ⟨habstract.mpr hda, hbody⟩
  | false =>
    rw [hda, if_neg Bool.false_ne_true] at hbody
    refine .inr ⟨fun ha => ?_, hbody⟩
    rw [habstract, hda] at ha
    cases ha

/-! ## Endings -/

/-- A search in a type: it refuses handles without a type; otherwise it answers, changes only
what is unlocked, and finds only declared constructors that the store then lets run. -/
structure Finds (s : Store ω π) (t : TypeHandle)
    (find : Failable (Store ω π) FactoryError (Option Ctor)) : Prop where
  absent : t = .absent → find.runFrom s = (.error .noType, s)
  unknown : t ≠ .absent → s.catalog.contains t = false →
    find.runFrom s = (.error (.unknownType t), s)
  known : s.catalog.contains t = true → ∃ r s', find.runFrom s = (.ok r, s') ∧ s.Opens s' ∧
    s.SameWorld s' ∧ ∀ k, r = some k → k ∈ s.catalog.ctorsOf t ∧ s'.Lets k

/-- A search that succeeds has found a declared constructor that the store lets run. -/
theorem Finds.of_ok {find : Failable (Store ω π) FactoryError (Option Ctor)} (h : s.Finds t find)
    (hrun : find.runFrom s = (.ok (some k), s')) :
    s.Opens s' ∧ k ∈ s.catalog.ctorsOf t ∧ s'.Lets k := by
  by_cases ht : t = .absent
  · rw [h.absent ht] at hrun
    cases hrun
  cases hc : s.catalog.contains t with
  | false =>
    rw [h.unknown ht hc] at hrun
    cases hrun
  | true =>
    obtain ⟨r, s₁, hfound, hopens, -, hlets⟩ := h.known hc
    cases hfound.symm.trans hrun
    exact ⟨hopens, hlets k rfl⟩

theorem Finds.describes (hs : s.WellFormed)
    {find : Failable (Store ω π) FactoryError (Option Ctor)} (h : s.Finds t find)
    (hrun : find.runFrom s = (.ok (some k), s')) : s'.Describes k := by
  obtain ⟨hopens, hk, -⟩ := h.of_ok hrun
  exact hopens.describes (hs.of_mem_ctorsOf hk).1

/-- The search finds `k`, and the arguments are shaped to the list `l`. -/
def Calls (s : Store ω π) (find : Failable (Store ω π) FactoryError (Option Ctor))
    (shape : Ctor → Failable (Store ω π) ArgumentError (List (Datum π))) (k : Ctor)
    (l : List (Datum π)) : Prop :=
  ∃ s₁ s₂, find.runFrom s = (.ok (some k), s₁) ∧ (shape k).runFrom s₁ = (.ok l, s₂)

/-- A log that the world keeps of all applications: whenever a stored body is applied to a list,
that list is added. -/
def Logs (s : Store ω π) (log : ω → List (List (Datum π))) : Prop :=
  ∀ k e, s.entry? k = some e → ∀ l world, log ((e.body l).runFrom world).2 = log world ++ [l]

/-- How a construction in `t` ends: with which error exactly when, and with an instance
otherwise, and in which `world`. Types are named as the store names them at the start. -/
structure Concludes (s : Store ω π) (t : TypeHandle) (request : List TypeHandle)
    (find : Failable (Store ω π) FactoryError (Option Ctor))
    (shape : Ctor → Failable (Store ω π) ArgumentError (List (Datum π)))
    (r : Except FactoryError (Instance π)) (world : ω) : Prop where
  noType : r = .error .noType ↔ t = .absent
  unknownType : ∀ u, r = .error (.unknownType u) ↔
    u = t ∧ t ≠ .absent ∧ s.catalog.contains t = false
  notFound : ∀ owner signature, r = .error (.notFound owner signature) ↔
    owner = s.catalog.nameOf t ∧ signature = s.catalog.signature request ∧
      ∃ s₁, find.runFrom s = (.ok none, s₁)
  badArguments : ∀ owner cause, r = .error (.badArguments owner cause) ↔
    owner = s.catalog.nameOf t ∧ ∃ k s₁ s₂, find.runFrom s = (.ok (some k), s₁) ∧
      (shape k).runFrom s₁ = (.error cause, s₂)
  abstractType : ∀ owner, r = .error (.target (.abstractType owner)) ↔
    owner = s.catalog.nameOf t ∧ s.IsAbstract t ∧ ∃ k l, s.Calls find shape k l
  /-- The body of the constructor that was found is applied to the shaped list, in the world that
  there was at the start, and what it leaves of that world when it fails is what is left. -/
  bodyFailed : ∀ owner cause w, r = .error (.target (.bodyFailed owner cause)) ∧ world = w ↔
    owner = s.catalog.nameOf t ∧ ¬s.IsAbstract t ∧ ∃ k l e, s.Calls find shape k l ∧
      s.entry? k.handle = some e ∧ (e.body l).runFrom s.world = (.error cause, w)
  made : ∀ payload w, (∃ a, r = .ok a ∧ a.type = t ∧ a.payload = payload) ∧ world = w ↔
    ¬s.IsAbstract t ∧ ∃ k l e, s.Calls find shape k l ∧
      s.entry? k.handle = some e ∧ (e.body l).runFrom s.world = (.ok payload, w)
  /-- Every other ending leaves the world as it was: nothing is applied. -/
  idle : (¬∃ k l, ¬s.IsAbstract t ∧ s.Calls find shape k l) → world = s.world
  /-- Nothing else is applied, before or after, and nothing twice: a log has one line more. -/
  once : ∀ log, s.Logs log → ∀ k l, ¬s.IsAbstract t → s.Calls find shape k l →
    log world = log s.world ++ [l]
  type : ∀ a, r = .ok a → a.type = t
  accessible : ∀ owner, r ≠ .error (.target (.inaccessible owner))

/-- The endings of a construction, by how far it gets. -/
theorem WellFormed.concludes_makeBy (hs : s.WellFormed) {o : Opener} {policy : Policy}
    {find : Failable (Store ω π) FactoryError (Option Ctor)}
    {shape : Ctor → Failable (Store ω π) ArgumentError (List (Datum π))}
    (hfind : s.Finds t find) (hshape : ∀ k, Steady (shape k))
    (hworld : ∀ k, Failable.Keeps SameWorld (shape k)) :
    let out := ((factoryWith o policy).makeBy t request find shape).runFrom s
    s.Concludes t request find shape out.1 out.2.world := by
  rw [Factory.makeBy, Failable.runFrom_bind]
  by_cases ht : t = .absent
  · have hrun := hfind.absent ht
    simp only [hrun]
    constructor <;> simp [Calls, hrun, ht]
  cases hc : s.catalog.contains t with
  | false =>
    have hrun := hfind.unknown ht hc
    simp only [hrun]
    constructor <;> simp [Calls, hrun, ht, hc, eq_comm]
  | true =>
    obtain ⟨r, s₁, hrun, hopens, hsame₁, hdecl⟩ := hfind.known hc
    simp only [hrun, Failable.runFrom_bind, Factory.runFrom_found]
    have hsteps₁ := hopens.steps
    have hs₁ := hsteps₁.wellFormed hs
    cases r with
    | none =>
      simp only [factoryWith_source, source_catalog, hopens.catalog]
      have hsame : s₁.world = s.world := hsame₁
      constructor <;> simp [Calls, hrun, ht, hc, hsame, eq_comm]
    | some k =>
      obtain ⟨hk, hlets⟩ := hdecl k rfl
      have howner := (hs.of_mem_ctorsOf hk).2
      have hsteps₂ := hshape k s₁ hs₁
      have hsame₂ := hworld k s₁
      simp only [Factory.runFrom_shaped]
      cases hshaped : (shape k).runFrom s₁ with
      | mk rs s₂ =>
        rw [hshaped] at hsteps₂ hsame₂
        have hsame : s₂.world = s.world := hsame₂.trans hsame₁
        have hname : s₂.catalog.nameOf t = s.catalog.nameOf t :=
          (hsteps₁.trans hsteps₂).grows.nameOf_eq hc
        cases rs with
        | error cause =>
          simp only [factoryWith_source, source_catalog, hname]
          have hcalls : ∀ k' l', ¬s.Calls find shape k' l' := by
            rintro k' l' ⟨s₁', s₂', hrun', hshaped'⟩
            cases hrun.symm.trans hrun'
            cases hshaped.symm.trans hshaped'
          constructor <;> simp [hcalls, hrun, hshaped, ht, hc, hsame, eq_comm]
        | ok l =>
          obtain ⟨e, he, hbody⟩ := hs.bodyFor_of_declared hk hsteps₁ hsteps₂ hlets
          have hcalls : ∀ k' l', s.Calls find shape k' l' ↔ k' = k ∧ l' = l := by
            intro k' l'
            constructor
            · rintro ⟨s₁', s₂', hrun', hshaped'⟩
              cases hrun.symm.trans hrun'
              cases hshaped.symm.trans hshaped'
              exact ⟨rfl, rfl⟩
            · rintro ⟨rfl, rfl⟩
              exact ⟨s₁, s₂, hrun, hshaped⟩
          simp only [run_instance, howner, hname]
          rcases hbody with ⟨habstract, hbody⟩ | ⟨habstract, hbody⟩
          · constructor <;> simp [hcalls, hrun, hshaped, ht, hc, hbody, habstract, hsame, eq_comm]
          · simp only [hbody, hsame]
            cases hb : (e.body l).runFrom s.world with
            | mk rb world =>
              have honce : ∀ log, s.Logs log → ∀ k' l', ¬s.IsAbstract t →
                  s.Calls find shape k' l' → log world = log s.world ++ [l'] := by
                intro log hlog k' l' _ hcall
                obtain ⟨rfl, rfl⟩ := (hcalls k' l').mp hcall
                have hline := hlog _ e he l' s.world
                rwa [hb] at hline
              cases rb with
              | error cause =>
                constructor
                case once => exact honce
                all_goals
                  simp [hcalls, hrun, hshaped, ht, hc, habstract, he, hb, and_assoc, eq_comm]
              | ok payload =>
                constructor
                case once => exact honce
                all_goals
                  simp [hcalls, hrun, hshaped, ht, hc, habstract, he, hb, and_assoc, eq_comm]

/-! ## The two searches -/

variable {o : Opener} {policy : Policy}

theorem OwnReachable.finds_bestCtor? (hs : s.OwnReachable) (ho : o = .self ∨ o = .denyAll) :
    s.Finds t ((factoryWith o policy).bestCtor? t request) where
  absent ht := by
    rw [Factory.bestCtor?, Factory.runFrom_catalogWith_bind, if_pos ht]
  unknown ht hc := by
    rw [Factory.bestCtor?, Factory.runFrom_catalogWith_bind, if_neg ht]
    simp [hc]
  known hc := by
    obtain ⟨r, s', hrun, hopens, hans, hlets⟩ := hs.run_bestCtor? o policy hc request
    have hsame := (findsTo_sameWorld o policy).bestCtor? t request s
    rw [hrun] at hsame
    refine ⟨r, s', hrun, hopens, hsame, fun k hk => ⟨?_, hlets ho k hk⟩⟩
    obtain ⟨formals, helig, -⟩ := hans.eligible k hk
    exact helig.declared

theorem WellFormed.finds_exactCtor? (hs : s.WellFormed) :
    s.Finds t ((factoryWith o policy).exactCtor? t request) where
  absent ht := by
    rw [Factory.exactCtor?, Factory.runFrom_catalogWith_bind, if_pos ht]
  unknown ht hc := by
    rw [Factory.exactCtor?, Factory.runFrom_catalogWith_bind, if_neg ht]
    simp [hc]
  known hc := by
    refine ⟨_, s, Factory.runFrom_exactCtor? _ (ne_absent_of_contains hc) hc request, .refl s, rfl,
      ?_⟩
    intro k hk
    obtain ⟨hk, -, hexposed⟩ := hs.exactCtor?_eq_some.mp hk
    exact ⟨hk, .inl hexposed⟩

/-- The best search comes to nothing exactly where no constructor is eligible. -/
theorem OwnReachable.bestCtor?_eq_none (hs : s.OwnReachable)
    (hc : s.catalog.contains t = true) :
    (∃ s₁, ((factoryWith o policy).bestCtor? t request).runFrom s = (.ok none, s₁)) ↔
      ¬∃ k, s.catalog.Eligible o policy t request k := by
  obtain ⟨r, s', hrun, -, hans, -⟩ := hs.run_bestCtor? o policy hc request
  rw [← hans.none_iff, hrun]
  simp

/-- The exact search comes to nothing exactly where no exposed constructor has the request
for its parameters. -/
theorem WellFormed.exactCtor?_eq_none (hs : s.WellFormed) (hc : s.catalog.contains t = true) :
    (∃ s₁, ((factoryWith o policy).exactCtor? t request).runFrom s = (.ok none, s₁)) ↔
      ¬∃ k ∈ s.catalog.ctorsOf t, k.params = request ∧ s.catalog.exposes k = true := by
  rw [Factory.runFrom_exactCtor? _ (ne_absent_of_contains hc) hc request]
  simp only [factoryWith_source, source_catalog, Prod.mk.injEq, Except.ok.injEq,
    exists_eq_right', Option.eq_none_iff_forall_ne_some, ne_eq, hs.exactCtor?_eq_some]
  exact ⟨fun h ⟨k, hk⟩ => h k hk, fun h k hk => h ⟨k, hk⟩⟩

/-- Shaping runs no body. -/
theorem sameWorld_shape (args : List (Datum π)) (k : Ctor) :
    Failable.Keeps SameWorld ((source : TypeSource (Store ω π)).shape args k) :=
  (source.keeps_gather sameWorld_arrayOf k args).bind fun g =>
    source.keeps_conform sameWorld_arrayOf k g

/-- On a store reached by true descriptions, with the store or nobody to unlock, a construction
ends in one of the ways of `Concludes`, with the best constructor as with the exact one. -/
theorem OwnReachable.concludes_make (hs : s.OwnReachable) (ho : o = .self ∨ o = .denyAll)
    (policy : Policy) (t : TypeHandle) (args : List (Datum π)) (request : List TypeHandle) :
    let F := factoryWith o policy
    let byBest := (F.makeAs t args request).runFrom s
    let byExact := (F.makeExactAs t args request).runFrom s
    s.Concludes t request (F.bestCtor? t request) (F.source.shape args) byBest.1 byBest.2.world ∧
    (s.catalog.contains t = true →
      ((∃ s₁, (F.bestCtor? t request).runFrom s = (.ok none, s₁)) ↔
        ¬∃ k, s.catalog.Eligible o policy t request k)) ∧
    s.Concludes t request (F.exactCtor? t request) (F.source.conform · args) byExact.1
      byExact.2.world ∧
    (s.catalog.contains t = true →
      ((∃ s₁, (F.exactCtor? t request).runFrom s = (.ok none, s₁)) ↔
        ¬∃ k ∈ s.catalog.ctorsOf t, k.params = request ∧ s.catalog.exposes k = true)) := by
  intro F
  have hwf := hs.wellFormed
  refine ⟨?_, hs.bestCtor?_eq_none, ?_, hwf.exactCtor?_eq_none⟩
  · rw [Factory.makeAs_eq]
    exact hwf.concludes_makeBy (hs.finds_bestCtor? ho) (steady_shape args) (sameWorld_shape args)
  · rw [Factory.makeExactAs_eq]
    exact hwf.concludes_makeBy hwf.finds_exactCtor? (steady_conform · args)
      (source.keeps_conform sameWorld_arrayOf · args)

/-- The world of the kennels is a log of all applications. -/
theorem kennels_logs : kennels.Logs id := by
  have hbodies : kennels.ctors.toList.map StoredCtor.body = List.replicate 3 notingBody := rfl
  intro k e he l world
  unfold entry? at he
  split at he
  · have hmem : e.body ∈ kennels.ctors.toList.map StoredCtor.body :=
      List.mem_map_of_mem (Array.mem_toList_iff.mpr (Array.mem_of_getElem? he))
    rw [hbodies] at hmem
    rw [List.eq_of_mem_replicate hmem]
    rfl
  · cases he

/-- A kennel for two dogs: one body is applied, to an array of them, and that once. -/
theorem concludes_make_kennel :
    kennels.OwnReachable ∧ (Opener.denyAll = .self ∨ Opener.denyAll = .denyAll) ∧
    let F := factoryWith .denyAll {}
    let out := (F.makeAs ⟨103⟩ twoDogs [⟨101⟩, ⟨101⟩]).runFrom kennels
    kennels.Concludes ⟨103⟩ [⟨101⟩, ⟨101⟩] (F.bestCtor? ⟨103⟩ [⟨101⟩, ⟨101⟩])
      (F.source.shape twoDogs) out.1 out.2.world ∧
    kennels.Logs id ∧ out.2.world = kennels.world ++ [[.array ⟨100⟩ twoDogs]] := by
  have hends := (kennels_ownReachable.concludes_make (.inr rfl) {} ⟨103⟩ twoDogs
    [⟨101⟩, ⟨101⟩]).1
  have hconcrete : ¬kennels.IsAbstract ⟨103⟩ := by
    rintro ⟨d, hd, ha⟩
    cases hd
    cases ha
  exact ⟨kennels_ownReachable, .inr rfl, hends, kennels_logs,
    hends.once id kennels_logs kennelOfAny _ hconcrete ⟨_, _, rfl, rfl⟩⟩

end Store

end BestFit
