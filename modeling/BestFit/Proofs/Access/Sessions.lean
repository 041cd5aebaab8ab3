import BestFit.Proofs.Access.Descriptions
import BestFit.Proofs.Construction.Arguments

/-!
# Sessions

Callers turn to a store, and to factories over it, with requests of all kinds and in any order.
A search unlocks constructors on the way, and what is unlocked runs from then on without another
look at the seal. In a session, everyone passes on descriptions as the store gave them. Main
statement: `InSession.closed`, a sealed constructor that is hidden stays out of reach.
-/
namespace BestFit

/-- One request of a session: to the store itself, or to a factory in which the store plays every
part but that of unlocking. -/
inductive Turn (ω π : Type) where
  | direct (op : Store.Operation ω π)
  /-- A constructor, to be given back if it is exposed. -/
  | exposed (k : Ctor)
  | exactCtor (o : Opener) (policy : Policy) (t : TypeHandle) (request : List TypeHandle)
  | bestCtor (o : Opener) (policy : Policy) (t : TypeHandle) (request : List TypeHandle)
  | make (o : Opener) (policy : Policy) (t : TypeHandle) (e : Entry π)

namespace Store

open Relation (ReflTransGen)

variable {ω π : Type} {s s' : Store ω π} {t : TypeHandle} {request : List TypeHandle}
  {args l : List (Datum π)} {k : Ctor} {o : Opener} {policy : Policy}

/-- A request that unlocks and runs what the store describes so, and leaves unlocking to the
store or to nobody. -/
def IsOwnTurn (s : Store ω π) : Turn ω π → Prop
  | .direct (.unlock k) | .direct (.instantiate k _) => s.Describes k
  | .direct (.declare _) | .direct (.arrayOf _) | .direct (.elsewhere _) | .exposed _ => True
  | .exactCtor o .. | .bestCtor o .. | .make o .. => o = .self ∨ o = .denyAll

/-- A request that unlocks and runs what the store describes so, whoever decides on unlocking in
the course of a search. -/
def IsTruthful (s : Store ω π) : Turn ω π → Prop
  | .direct (.unlock k) | .direct (.instantiate k _) => s.Describes k
  | .direct (.declare _) | .direct (.arrayOf _) | .direct (.elsewhere _) | .exposed _ => True
  | .exactCtor .. | .bestCtor .. | .make .. => True

theorem IsOwnTurn.isTruthful {q : Turn ω π} (hq : s.IsOwnTurn q) : s.IsTruthful q := by
  cases q with
  | direct op => cases op <;> exact hq
  | exposed | exactCtor | bestCtor | make => trivial

/-- The store that a request leaves behind. -/
def serve (s : Store ω π) : Turn ω π → Store ω π
  | .direct op => s.apply op
  | .exposed _ => s
  | .exactCtor o policy t request => (((factoryWith o policy).exactCtor? t request).runFrom s).2
  | .bestCtor o policy t request => (((factoryWith o policy).bestCtor? t request).runFrom s).2
  | .make o policy t e => ((e.make (factoryWith o policy) t).runFrom s).2

/-- The stores that a session comes through. -/
inductive InSession : Store ω π → Prop
  | initial (serial : Nat) (world : ω) : InSession { serial, world }
  | serve {s : Store ω π} (h : InSession s) {q : Turn ω π} (hq : s.IsOwnTurn q) :
      InSession (s.serve q)

/-- A request is answered with a constructor. -/
inductive HandsOut (s : Store ω π) : Turn ω π → Ctor → Prop
  | exposed {k : Ctor} (h : s.catalog.exposes k = true) : HandsOut s (.exposed k) k
  | exactCtor {o : Opener} {policy : Policy} {t : TypeHandle} {request : List TypeHandle}
      {k : Ctor} {s' : Store ω π}
      (h : ((factoryWith o policy).exactCtor? t request).runFrom s = (.ok (some k), s')) :
      HandsOut s (.exactCtor o policy t request) k
  | bestCtor {o : Opener} {policy : Policy} {t : TypeHandle} {request : List TypeHandle}
      {k : Ctor} {s' : Store ω π}
      (h : ((factoryWith o policy).bestCtor? t request).runFrom s = (.ok (some k), s')) :
      HandsOut s (.bestCtor o policy t request) k

/-- What a request for an instance is answered with. Other requests are not answered so. -/
def outcome? (s : Store ω π) : Turn ω π → Option (Except FactoryError (Instance π))
  | .direct (.instantiate k l) => some (((instantiate k l).runFrom s).1.mapError .target)
  | .make o policy t e => some ((e.make (factoryWith o policy) t).runFrom s).1
  | _ => none

/-- A request runs `body` for `k` on the list `l`; when it does, the store has become `s'`. -/
inductive RunsBody (s : Store ω π) : Turn ω π → Ctor → Body ω π → List (Datum π) → Store ω π → Prop
  | direct {k : Ctor} {l : List (Datum π)} {body : Body ω π} (h : s.bodyFor k = .ok body) :
      RunsBody s (.direct (.instantiate k l)) k body l s
  | make {o : Opener} {policy : Policy} {t : TypeHandle} {e : Entry π} {k : Ctor} {body : Body ω π}
      {l : List (Datum π)} {s' : Store ω π}
      (h : Applies (factoryWith o policy) t e s k body l s') :
      RunsBody s (.make o policy t e) k body l s'

/-! ## One request -/

/-- A request comes down to operations on true descriptions. -/
theorem WellFormed.steps_of_isTruthful (hs : s.WellFormed) {q : Turn ω π} (hq : s.IsTruthful q) :
    s.OwnSteps (s.serve q) := by
  cases q with
  | direct op =>
    refine ReflTransGen.single ⟨op, ?_, rfl⟩
    cases op with
    | unlock k => exact hq
    | declare d | arrayOf x | instantiate k args | elsewhere world => trivial
  | exposed k => exact .refl s
  | exactCtor o policy t request => exact steady_exactCtor? o policy t request s hs
  | bestCtor o policy t request => exact steady_bestCtor? o policy t request s hs
  | make o policy t e => exact steady_make o policy t e s hs

theorem WellFormed.steps_serve (hs : s.WellFormed) {q : Turn ω π} (hq : s.IsOwnTurn q) :
    s.OwnSteps (s.serve q) := hs.steps_of_isTruthful hq.isTruthful

theorem InSession.ownReachable (h : s.InSession) : s.OwnReachable := by
  induction h with
  | initial serial world => exact .initial serial world
  | serve _ hq ih => exact (ih.wellFormed.steps_serve hq).ownReachable ih

/-! ## What a request answers with, and what it runs -/

theorem OwnReachable.describes_of_bestCall (hs : s.OwnReachable) (ho : o = .self ∨ o = .denyAll)
    (h : ((factoryWith o policy).bestCall t args request).runFrom s = (.ok ⟨k, l⟩, s')) :
    s'.Describes k := by
  obtain ⟨s₁, g, s₂, hbest, hgather, hconform⟩ := Factory.bestCall_eq_ok _ |>.mp h
  have hs₁ := ((steady_bestCtor? o policy t request).steps hs.wellFormed hbest).wellFormed
    hs.wellFormed
  have hsteps₂ := (steady_gather k args).steps hs₁ hgather
  have hsteps₃ := (steady_conform k g).steps (hsteps₂.wellFormed hs₁) hconform
  have hk := (hs.finds_bestCtor? ho).describes hs.wellFormed hbest
  exact (hsteps₂.trans hsteps₃).grows.ctor? hk

theorem WellFormed.describes_of_exactCall (hs : s.WellFormed)
    (h : ((factoryWith o policy).exactCall t args request).runFrom s = (.ok ⟨k, l⟩, s')) :
    s'.Describes k := by
  obtain ⟨s₁, hexact, hconform⟩ := Factory.exactCall_eq_ok _ |>.mp h
  have hs₁ := ((steady_exactCtor? o policy t request).steps hs hexact).wellFormed hs
  have hsteps := (steady_conform k args).steps hs₁ hconform
  exact hsteps.grows.ctor? (hs.finds_exactCtor?.describes hs hexact)

/-- What a construction calls is a constructor that the store then describes so. -/
theorem OwnReachable.describes_of_call (hs : s.OwnReachable) (ho : o = .self ∨ o = .denyAll)
    {e : Entry π} (h : (e.call (factoryWith o policy) t).runFrom s = (.ok ⟨k, l⟩, s')) :
    s'.Describes k := by
  have hwf := hs.wellFormed
  cases e with
  | best args =>
    obtain ⟨ts, s₀, htypes, hcall⟩ := Failable.runFrom_bind_eq_ok.mp h
    have hs₀ := ((steady_typesOf args).steps hwf htypes).ownReachable hs
    exact hs₀.describes_of_bestCall ho hcall
  | bestAs args request => exact hs.describes_of_bestCall ho h
  | exact args =>
    obtain ⟨ts, s₀, htypes, hcall⟩ := Failable.runFrom_bind_eq_ok.mp h
    have hs₀ := ((steady_typesOf args).steps hwf htypes).wellFormed hwf
    exact hs₀.describes_of_exactCall hcall
  | exactAs args request => exact hwf.describes_of_exactCall h

/-- A body is run on a store that comes about from the present one, for a constructor as that
store describes it. -/
theorem RunsBody.steps (hs : s.OwnReachable) {q : Turn ω π} (hq : s.IsOwnTurn q) {body : Body ω π}
    (h : RunsBody s q k body l s') :
    s.OwnSteps s' ∧ s'.Describes k ∧ s'.bodyFor k = .ok body := by
  cases h with
  | direct hbody => exact ⟨.refl s, hq, hbody⟩
  | make happlies =>
    exact ⟨(steady_call _ _ _ _).steps hs.wellFormed happlies.call,
      hs.describes_of_call hq happlies.call, happlies.body⟩

/-- A request that runs a body ends as the body does on the world that there was: there is one
more instance if it succeeds, and nothing but the world has changed since if it does not. -/
theorem RunsBody.serve_eq {q : Turn ω π} {body : Body ω π} (h : RunsBody s q k body l s') :
    s.serve q =
      match (body l).runFrom s.world with
      | (.error _, world) => { s' with world }
      | (.ok _, world) => { s' with made := s'.made + 1, world } := by
  cases h with
  | direct hbody =>
    show ((instantiate k l).runFrom s).2 = _
    rw [runFrom_instantiate, hbody]
    cases hb : (body l).runFrom s.world with
    | mk r world => cases r <;> simp only [hb]
  | make happlies =>
    rw [serve, happlies.make]
    cases (body l).runFrom s.world with
    | mk r world => cases r <;> rfl

/-- It is answered with the error of the body, or with an instance of what the body gave. -/
theorem RunsBody.outcome?_eq {q : Turn ω π} {body : Body ω π} (h : RunsBody s q k body l s') :
    s.outcome? q = some
      (match (body l).runFrom s.world with
        | (.error cause, _) => .error (.target (.bodyFailed (s'.catalog.nameOf k.owner) cause))
        | (.ok payload, _) =>
            .ok { type := k.owner, identity := ⟨s'.serial, s'.made⟩, payload }) := by
  cases h with
  | direct hbody =>
    show some (((instantiate k l).runFrom s).1.mapError FactoryError.target) = _
    rw [runFrom_instantiate, hbody]
    cases hb : (body l).runFrom s.world with
    | mk r world => cases r <;> simp only [hb] <;> rfl
  | make happlies =>
    rw [outcome?, happlies.make]
    cases (body l).runFrom s.world with
    | mk r world => cases r <;> rfl

/-- A request that runs no body leaves the world alone, but for requests that are about nothing
else. -/
theorem sameWorld_serve {q : Turn ω π} (h : ¬∃ k body l s', RunsBody s q k body l s') :
    (s.serve q).world = s.world ∨ ∃ world, q = .direct (.elsewhere world) := by
  cases q with
  | direct op =>
    cases op with
    | declare d =>
      refine .inl ?_
      rcases s.apply_declare d with ⟨-, hd⟩ | hd <;> rw [serve, hd]
      rfl
    | arrayOf x => exact .inl (sameWorld_arrayOf x s)
    | unlock k => exact .inl (sameWorld_opener .self k s)
    | instantiate k l =>
      refine .inl ?_
      show ((instantiate k l).runFrom s).2.world = s.world
      rw [runFrom_instantiate]
      cases hb : s.bodyFor k with
      | error f => rfl
      | ok body => exact absurd ⟨k, body, l, s, .direct hb⟩ h
    | elsewhere world => exact .inr ⟨world, rfl⟩
  | exposed k => exact .inl rfl
  | exactCtor o policy t request =>
    exact .inl ((factoryWith o policy).keeps_exactCtor? (R := SameWorld) t request s)
  | bestCtor o policy t request =>
    exact .inl ((findsTo_sameWorld o policy).bestCtor? t request s)
  | make o policy t e =>
    obtain ⟨err, s', hmake, -, hworld⟩ :=
      error_of_not_applies fun ⟨k, body, l, s', happlies⟩ => h ⟨k, body, l, s', .make happlies⟩
    refine .inl ?_
    rw [serve, hmake]
    exact hworld

/-- A request for an instance that runs no body is answered with an error, which is not that of
a body. -/
theorem error_of_not_runsBody {q : Turn ω π} (h : ¬∃ k body l s', RunsBody s q k body l s')
    {r : Except FactoryError (Instance π)} (hr : s.outcome? q = some r) :
    ∃ err, r = .error err ∧ ∀ owner cause, err ≠ .target (.bodyFailed owner cause) := by
  cases q with
  | direct op =>
    cases op with
    | declare d | arrayOf x | unlock k | elsewhere world => cases hr
    | instantiate k l =>
      cases hb : s.bodyFor k with
      | error f =>
        rw [outcome?, runFrom_instantiate, hb] at hr
        cases hr
        refine ⟨.target f, rfl, ?_⟩
        rintro owner cause hf
        cases hf
        cases cause?_of_bodyFor hb
      | ok body => exact absurd ⟨k, body, l, s, .direct hb⟩ h
  | exposed k | exactCtor o policy t request | bestCtor o policy t request => cases hr
  | make o policy t e =>
    obtain ⟨err, s', hmake, herr, -⟩ :=
      error_of_not_applies fun ⟨k, body, l, s', happlies⟩ => h ⟨k, body, l, s', .make happlies⟩
    rw [outcome?, hmake] at hr
    cases hr
    exact ⟨err, rfl, herr⟩

/-- What a request answers with, the store it leaves behind would run, abstract owners aside. -/
theorem HandsOut.lets (hs : s.OwnReachable) {q : Turn ω π} (hq : s.IsOwnTurn q)
    (h : HandsOut s q k) : (s.serve q).Lets k := by
  cases h with
  | exposed hexposed => exact .inl hexposed
  | exactCtor hrun =>
    rw [serve, hrun]
    exact (hs.wellFormed.finds_exactCtor?.of_ok hrun).2.2
  | bestCtor hrun =>
    rw [serve, hrun]
    exact ((hs.finds_bestCtor? hq).of_ok hrun).2.2

/-! ## Whole sessions -/

/-- A sealed constructor that is hidden is not let run, now or later. -/
theorem OwnReachable.not_lets (hs : s.OwnReachable) (hk : s.Describes k)
    (hsealed : k.isSealed = true) (hhidden : s.catalog.exposes k = false)
    (h : s.OwnSteps s') : ¬s'.Lets k := by
  obtain ⟨e, he, rfl⟩ := Option.map_eq_some_iff.mp hk
  obtain ⟨d, hd, -⟩ := (hs.wellFormed.entries he).owner
  rw [lets_of_locked ((h.ownReachable hs).locked_of_sealed (h.grows.ctor? hk) hsealed),
    h.grows.exposes_eq hs.wellFormed (contains_iff.mpr ⟨d, hd⟩), hhidden]
  exact Bool.false_ne_true

/-- In a session, nothing sealed is ever unlocked, and a body runs only for a stored constructor
that is exposed or was unlocked before; the request then ends as the body does. A request that
runs none leaves the world alone and makes no instance. So no request answers with a constructor
that is sealed and hidden, and none runs its body. -/
theorem InSession.closed (hs : s.InSession) :
    (∀ k, s.Describes k → k.isSealed = true → s.isUnlocked k.handle = false) ∧
    ∀ q : Turn ω π, s.IsOwnTurn q →
      (∀ k body l s', RunsBody s q k body l s' →
        (∃ e, s'.entry? k.handle = some e ∧ e.ctor = k ∧ e.body = body ∧
          (s'.catalog.exposes k = true ∨ s'.isUnlocked k.handle = true)) ∧
        s.outcome? q = some
          (match (body l).runFrom s.world with
            | (.error cause, _) => .error (.target (.bodyFailed (s'.catalog.nameOf k.owner) cause))
            | (.ok payload, _) =>
                .ok { type := k.owner, identity := ⟨s'.serial, s'.made⟩, payload }) ∧
        s.serve q =
          match (body l).runFrom s.world with
          | (.error _, world) => { s' with world }
          | (.ok _, world) => { s' with made := s'.made + 1, world }) ∧
      ((¬∃ k body l s', RunsBody s q k body l s') →
        (∀ r, s.outcome? q = some r →
          ∃ err, r = .error err ∧ ∀ owner cause, err ≠ .target (.bodyFailed owner cause)) ∧
        ((s.serve q).world = s.world ∨ ∃ world, q = .direct (.elsewhere world))) ∧
      ∀ k, s.Describes k → k.isSealed = true → s.catalog.exposes k = false →
        ¬HandsOut s q k ∧ ∀ j body l s', RunsBody s q j body l s' → j.handle ≠ k.handle := by
  have hown := hs.ownReachable
  refine ⟨fun k hk hsealed => hown.locked_of_sealed hk hsealed,
    fun q hq => ⟨?_, fun hno => ⟨fun r => error_of_not_runsBody hno, sameWorld_serve hno⟩, ?_⟩⟩
  · intro k body l s' hrun
    obtain ⟨hsteps, hk, hbody⟩ := hrun.steps hown hq
    obtain ⟨e, he, -, hrest, -, hlets⟩ :=
      (hsteps.wellFormed hown.wellFormed).bodyFor_eq_ok.mp hbody
    obtain ⟨f, hf, hfk⟩ := Option.map_eq_some_iff.mp hk
    obtain rfl := Option.some.inj (he.symm.trans hf)
    exact ⟨⟨e, he, hfk, hrest, hlets.imp_right isUnlocked_iff.mpr⟩, hrun.outcome?_eq, hrun.serve_eq⟩
  · intro k hk hsealed hhidden
    constructor
    · intro hout
      exact hown.not_lets hk hsealed hhidden (hown.wellFormed.steps_serve hq) (hout.lets hown hq)
    · intro j body l s' hrun hjk
      obtain ⟨hsteps, hj, hbody⟩ := hrun.steps hown hq
      have hlater : s'.Describes k := hsteps.grows.ctor? hk
      rw [Describes, hjk] at hj
      obtain rfl := Option.some.inj (hj.symm.trans hlater)
      obtain ⟨e, -, -, -, -, hlets⟩ :=
        (hsteps.wellFormed hown.wellFormed).bodyFor_eq_ok.mp hbody
      exact hown.not_lets hk hsealed hhidden hsteps hlets

theorem vaults_inSession : vaults.InSession :=
  (InSession.initial 1 []).serve (q := .direct (.declare _)) trivial

/-- A request for a vault made of a text: the hidden constructor is unlocked and then runs. -/
def vaultOfText : Turn Journal Nat := .make .self {} ⟨100⟩ (.bestAs [.string "gold"] [.object])

/-- The constructor that is only hidden is unlocked before it runs; the sealed one stays locked,
and no search answers with it. -/
theorem closed_vault :
    vaults.InSession ∧ vaults.IsOwnTurn vaultOfText ∧
    (∃ body s', RunsBody vaults vaultOfText hiddenVault body [.string "gold"] s' ∧
      (s'.catalog.exposes hiddenVault = true ∨ s'.isUnlocked hiddenVault.handle = true)) ∧
    (vaults.serve vaultOfText).world = [[.string "gold"]] ∧
    vaults.Describes sealedVault ∧ vaults.isUnlocked sealedVault.handle = false ∧
    vaults.catalog.exposes sealedVault = false ∧
    ¬HandsOut vaults (.bestCtor .self {} ⟨100⟩ []) sealedVault := by
  obtain ⟨hlocked, hturn⟩ := vaults_inSession.closed
  have hown : vaults.IsOwnTurn vaultOfText := .inl rfl
  have hruns : RunsBody vaults vaultOfText hiddenVault notingBody [.string "gold"]
      { vaults with unlocked := [hiddenVault.handle] } := .make ⟨rfl, rfl⟩
  obtain ⟨⟨e, -, -, -, haccess⟩, -, hserve⟩ := (hturn _ hown).1 _ _ _ _ hruns
  have hsealed :=
    (hturn (.bestCtor .self {} ⟨100⟩ []) (.inl rfl)).2.2 sealedVault rfl rfl (by decide)
  refine ⟨vaults_inSession, hown, ⟨_, _, hruns, haccess⟩, ?_, rfl, hlocked _ rfl rfl, by decide,
    hsealed.1⟩
  rw [hserve]
  rfl

end Store

end BestFit
