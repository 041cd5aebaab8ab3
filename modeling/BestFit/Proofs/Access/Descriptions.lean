import BestFit.Proofs.Construction.Outcome

/-!
# Descriptions as they come

A store takes any description that it is given. It looks up the handle, compares the owner, and
takes everything else from the description instead of from what it stored. `Honours` says that
access is as it was declared, whatever the description says, and `TurnsAway` that a description
gets nowhere. Main statements: `Reachable.honours_iff` and `Reachable.turnsAway_iff`, for which
descriptions that is so.
-/
namespace BestFit.Store

variable {ω π : Type} {s : Store ω π} {d : Ctor} {e : StoredCtor ω π}

/-! ## What a description comes to -/

theorem owns_iff : s.owns d = true ↔
    ∃ e, s.entry? d.handle = some e ∧ e.ctor.owner = d.owner := by
  rw [owns, Option.any_eq_true]
  simp only [beq_iff_eq]

/-- Unlocked afterwards is what was so before, and what the description names, provided that the
store owns it and the description does not seal it. -/
theorem isUnlocked_unlock (s : Store ω π) (d : Ctor) (j : CtorHandle) :
    ((unlock d).run s).2.isUnlocked j = true ↔
      s.isUnlocked j = true ∨ j = d.handle ∧ s.owns d = true ∧ d.isSealed = false := by
  obtain ⟨ho, h⟩ | ⟨ho, hu, h⟩ | ⟨-, -, hsealed, h⟩ | ⟨ho, -, hsealed, h⟩ := s.unlock_cases d <;>
    rw [h]
  · simp [ho]
  · refine ⟨.inl, ?_⟩
    rintro (hj | ⟨rfl, -, -⟩)
    · exact hj
    · exact hu
  · simp [hsealed]
  · simp [isUnlocked, ho, hsealed, or_comm]

/-- An attempt to unlock fails for want of ownership, or because the description seals what is
not unlocked yet; the store is then left as it was. -/
theorem run_unlock_eq_refused : (unlock d).run s = (false, s) ↔
    s.owns d = false ∨ s.isUnlocked d.handle = false ∧ d.isSealed = true := by
  constructor
  · intro hrun
    obtain ⟨ho, -⟩ | ⟨-, -, h⟩ | ⟨-, hu, hsealed, -⟩ | ⟨-, -, -, h⟩ := s.unlock_cases d
    · exact .inl ho
    · cases h.symm.trans hrun
    · exact .inr ⟨hu, hsealed⟩
    · cases h.symm.trans hrun
  · intro hno
    obtain ⟨-, h⟩ | ⟨ho, hu, -⟩ | ⟨-, -, -, h⟩ | ⟨ho, -, hsealed, -⟩ := s.unlock_cases d
    · exact h
    · simp [ho, hu] at hno
    · exact h
    · simp [ho, hsealed] at hno

/-- The answers of the store to a request for the body, by how far the description gets. -/
theorem WellFormed.bodyFor_cases (hs : s.WellFormed) (d : Ctor) :
    (s.owns d = false ∧ s.bodyFor d = .error (.inaccessible (s.catalog.nameOf d.owner))) ∨
    ∃ e, s.entry? d.handle = some e ∧ e.ctor.owner = d.owner ∧
      ((s.IsAbstract d.owner ∧ s.bodyFor d = .error (.abstractType (s.catalog.nameOf d.owner))) ∨
        (¬s.IsAbstract d.owner ∧ ¬s.Lets d ∧
          s.bodyFor d = .error (.inaccessible (s.catalog.nameOf d.owner))) ∨
        (¬s.IsAbstract d.owner ∧ s.Lets d ∧ s.bodyFor d = .ok e.body)) := by
  cases he : s.entry? d.handle with
  | none => exact .inl ⟨by simp [owns, he], by simp [bodyFor, he]⟩
  | some e =>
    by_cases howner : e.ctor.owner = d.owner
    · refine .inr ⟨e, rfl, howner, ?_⟩
      obtain ⟨t, ht, -⟩ := (hs.entries he).owner
      rw [howner] at ht
      have habstract : s.IsAbstract d.owner ↔ t.isAbstract = true := by simp [IsAbstract, ht]
      rw [habstract, lets_iff]
      cases ha : t.isAbstract with
      | true => exact .inl ⟨rfl, by simp [bodyFor, he, howner, ht, ha]⟩
      | false =>
        refine .inr ?_
        cases hl : s.catalog.exposes d || s.isUnlocked d.handle with
        | true => exact .inr ⟨by simp, rfl, by simp [bodyFor, he, howner, ht, ha, hl]⟩
        | false => exact .inl ⟨by simp, by simp, by simp [bodyFor, he, howner, ht, ha, hl]⟩
    · exact .inl ⟨by simp [owns, he, howner], by simp [bodyFor, he, howner]⟩

/-- A body runs for a description exactly if it is stored under the handle, for the same owner,
and nothing that the description says stands in the way. -/
theorem WellFormed.bodyFor_eq_ok (hs : s.WellFormed) {body : Body ω π} :
    s.bodyFor d = .ok body ↔
      ∃ e, s.entry? d.handle = some e ∧ e.ctor.owner = d.owner ∧ e.body = body ∧
        ¬s.IsAbstract d.owner ∧ s.Lets d := by
  constructor
  · intro hrun
    obtain ⟨-, h⟩ | ⟨e, he, howner, ⟨-, h⟩ | ⟨-, -, h⟩ | ⟨ha, hlets, h⟩⟩ := hs.bodyFor_cases d
    · cases h.symm.trans hrun
    · cases h.symm.trans hrun
    · cases h.symm.trans hrun
    · exact ⟨e, he, howner, Except.ok.inj (h.symm.trans hrun), ha, hlets⟩
  · rintro ⟨e, he, howner, rfl, ha, hlets⟩
    obtain ⟨ho, -⟩ | ⟨f, hf, -, ⟨ha', -⟩ | ⟨-, hno, -⟩ | ⟨-, -, h⟩⟩ := hs.bodyFor_cases d
    · rw [owns_iff.mpr ⟨e, he, howner⟩] at ho
      cases ho
    · exact absurd ha' ha
    · exact absurd hlets hno
    · obtain rfl := Option.some.inj (he.symm.trans hf)
      exact h

/-- No body runs for a description exactly if making an instance for it is in vain: the error is
not that of a body, and nothing has changed, the world of the bodies included. -/
theorem bodyFor_ne_ok_iff : (∀ body, s.bodyFor d ≠ .ok body) ↔
    ∀ args, ∃ f, f.cause? = none ∧ (instantiate d args).runFrom s = (.error f, s) := by
  constructor
  · intro h args
    cases hb : s.bodyFor d with
    | error f => exact ⟨f, cause?_of_bodyFor hb, by rw [runFrom_instantiate, hb]⟩
    | ok body => exact absurd hb (h body)
  · intro h body hb
    obtain ⟨f, hf, hrun⟩ := h []
    rw [runFrom_instantiate, hb] at hrun
    -- a body that runs ends with an instance or with an error of its own
    cases hr : (body []).runFrom s.world with
    | mk r world =>
      cases r with
      | error cause =>
        simp only [hr, Prod.mk.injEq] at hrun
        cases hrun.1
        cases hf
      | ok payload =>
        simp only [hr, Prod.mk.injEq] at hrun
        cases hrun.1

/-! ## Access as it was declared -/

/-- What was declared decides on access, whatever the description says: one that was declared as
sealed is not unlocked by it, and the body of one that is hidden and locked does not run. -/
structure Honours (s : Store ω π) (d : Ctor) (e : StoredCtor ω π) : Prop where
  sealed : e.ctor.isSealed = true → s.isUnlocked d.handle = false →
    ((unlock d).run s).2.isUnlocked d.handle = false
  hidden : s.catalog.exposes e.ctor = false → s.isUnlocked d.handle = false →
    ∀ body, s.bodyFor d ≠ .ok body
  /-- To ask for an instance is in vain: the error is not that of a body, and nothing has changed,
  the world of the bodies included. -/
  instantiate : s.catalog.exposes e.ctor = false → s.isUnlocked d.handle = false →
    ∀ args, ∃ f, f.cause? = none ∧ (Store.instantiate d args).runFrom s = (.error f, s)

/-- A description is met as the declaration would have it exactly if it names another owner or
claims no more for a locked constructor than was declared: it seals what is sealed, and what it
says does not expose a hidden one, abstract owners aside. -/
theorem Reachable.honours_iff (hs : s.Reachable) (he : s.entry? d.handle = some e) :
    s.Honours d e ↔ (e.ctor.owner = d.owner → s.isUnlocked d.handle = false →
      (e.ctor.isSealed = true → d.isSealed = true) ∧
      (s.catalog.exposes e.ctor = false → ¬s.IsAbstract d.owner → s.catalog.exposes d = false)) := by
  have hwf := hs.wellFormed
  constructor
  · intro h howner hlocked
    constructor
    · intro hsealed
      by_contra hd
      have hafter := (isUnlocked_unlock s d d.handle).mpr
        (.inr ⟨rfl, owns_iff.mpr ⟨e, he, howner⟩, by simpa using hd⟩)
      rw [h.sealed hsealed hlocked] at hafter
      cases hafter
    · intro hhidden ha
      by_contra hd
      have hlets : s.Lets d := .inl (by simpa using hd)
      exact h.hidden hhidden hlocked e.body
        (hwf.bodyFor_eq_ok.mpr ⟨e, he, howner, rfl, ha, hlets⟩)
  · intro h
    have hno : s.catalog.exposes e.ctor = false → s.isUnlocked d.handle = false →
        ∀ body, s.bodyFor d ≠ .ok body := by
      intro hhidden hlocked body hbody
      obtain ⟨f, hf, howner, -, ha, hlets⟩ := hwf.bodyFor_eq_ok.mp hbody
      obtain rfl := Option.some.inj (he.symm.trans hf)
      rw [lets_of_locked hlocked, (h howner hlocked).2 hhidden ha] at hlets
      cases hlets
    refine ⟨?_, hno, fun hhidden hlocked => bodyFor_ne_ok_iff.mp (hno hhidden hlocked)⟩
    intro hsealed hlocked
    by_contra hafter
    rw [Bool.not_eq_false, isUnlocked_unlock, hlocked] at hafter
    obtain hno | ⟨-, ho, hd⟩ := hafter
    · cases hno
    · obtain ⟨f, hf, howner⟩ := owns_iff.mp ho
      obtain rfl := Option.some.inj (he.symm.trans hf)
      rw [(h howner hlocked).1 hsealed] at hd
      cases hd

/-- A store of vaults. One constructor is sealed; the other one, for any object, is only hidden. -/
def vaults : Store Journal Nat :=
  ({ serial := 1, world := [] } : Store Journal Nat).apply (.declare
    { name := "Vault", sort := .classType, modifiers := { isPublic := true },
      superclass := some .object,
      ctors :=
        [ { params := [], modifiers := { isSealed := true }, body := notingBody },
          { params := [.object], body := notingBody } ] })

theorem vaults_reachable : vaults.Reachable := (Reachable.initial 1 []).apply _

/-- The constructor that is sealed. -/
def sealedVault : Ctor where
  handle := ⟨1⟩
  owner := ⟨100⟩
  params := []
  modifiers := { isSealed := true }

/-- The constructor that is only hidden. -/
def hiddenVault : Ctor where
  handle := ⟨2⟩
  owner := ⟨100⟩
  params := [.object]

/-- The description that the store gives of a sealed constructor is met as declared. -/
theorem honours_iff_vault :
    vaults.Reachable ∧
    ∃ e, vaults.entry? sealedVault.handle = some e ∧ e.ctor = sealedVault ∧
      vaults.Honours sealedVault e := by
  refine ⟨vaults_reachable, _, rfl, rfl, ?_⟩
  refine (vaults_reachable.honours_iff (d := sealedVault) rfl).mpr ?_
  intro _ _
  exact ⟨id, fun hhidden _ => hhidden⟩

/-- A copy of that description without the seal unlocks the constructor, and one that calls it
public runs its body. -/
theorem not_honours_vault :
    vaults.Reachable ∧
    ∃ e, vaults.entry? sealedVault.handle = some e ∧ e.ctor = sealedVault ∧
      vaults.isUnlocked sealedVault.handle = false ∧ vaults.catalog.exposes e.ctor = false ∧
      ((unlock { sealedVault with modifiers := {} }).run vaults).2.isUnlocked sealedVault.handle =
        true ∧
      vaults.bodyFor { sealedVault with modifiers := { isPublic := true } } = .ok e.body ∧
      ((instantiate { sealedVault with modifiers := { isPublic := true } } []).runFrom
        vaults).2.world = vaults.world ++ [[]] :=
  ⟨vaults_reachable, _, rfl, rfl, rfl, by decide, rfl, rfl, rfl⟩

/-! ## Descriptions of something else -/

/-- A description gets nowhere: it unlocks nothing, the store is left as it was, and no body runs
for it, on any arguments. -/
structure TurnsAway (s : Store ω π) (d : Ctor) : Prop where
  unlock : (Store.unlock d).run s = (false, s)
  instantiate : ∀ args, (Store.instantiate d args).runFrom s =
    (.error (.inaccessible (s.catalog.nameOf d.owner)), s)
  body : ∀ body, s.bodyFor d ≠ .ok body

/-- Turned away is what cannot be unlocked and has no body to run. -/
theorem turnsAway_iff_refused : s.TurnsAway d ↔
    (unlock d).run s = (false, s) ∧
      s.bodyFor d = .error (.inaccessible (s.catalog.nameOf d.owner)) := by
  constructor
  · intro h
    refine ⟨h.unlock, ?_⟩
    have hrun := h.instantiate []
    rw [runFrom_instantiate] at hrun
    cases hb : s.bodyFor d with
    | ok body => exact absurd hb (h.body body)
    | error f =>
      rw [hb] at hrun
      rw [Except.error.inj (congrArg Prod.fst hrun)]
  · rintro ⟨hunlock, hbody⟩
    refine ⟨hunlock, fun args => ?_, fun body => ?_⟩
    · rw [runFrom_instantiate, hbody]
    · rw [hbody]
      intro hno
      cases hno

theorem WellFormed.bodyFor_eq_inaccessible (hs : s.WellFormed) :
    s.bodyFor d = .error (.inaccessible (s.catalog.nameOf d.owner)) ↔
      s.owns d = false ∨ ¬s.IsAbstract d.owner ∧ ¬s.Lets d := by
  obtain ⟨ho, h⟩ | ⟨e, he, howner, hcases⟩ := hs.bodyFor_cases d
  · simp [h, ho]
  · have ho : s.owns d = true := owns_iff.mpr ⟨e, he, howner⟩
    obtain ⟨ha, h⟩ | ⟨ha, hlets, h⟩ | ⟨ha, hlets, h⟩ := hcases
    · simp [h, ho, ha]
    · simp [h, ha, hlets]
    · simp [h, ho, hlets]

/-- A description is turned away exactly if the store has nothing under that handle for that
owner, or if it describes itself as sealed and hidden, what is stored is still locked, and the
owner is not abstract. Where a description comes from does not count. -/
theorem Reachable.turnsAway_iff (hs : s.Reachable) :
    s.TurnsAway d ↔
      (¬∃ e, s.entry? d.handle = some e ∧ e.ctor.owner = d.owner) ∨
      (d.isSealed = true ∧ s.catalog.exposes d = false ∧ s.isUnlocked d.handle = false ∧
        ¬s.IsAbstract d.owner) := by
  rw [turnsAway_iff_refused, run_unlock_eq_refused, hs.wellFormed.bodyFor_eq_inaccessible,
    ← owns_iff, Bool.not_eq_true]
  constructor
  · rintro ⟨hno | ⟨hlocked, hsealed⟩, hbody⟩
    · exact .inl hno
    · rcases hbody with hno | ⟨ha, hl⟩
      · exact .inl hno
      · rw [lets_of_locked hlocked, Bool.not_eq_true] at hl
        exact .inr ⟨hsealed, hl, hlocked, ha⟩
  · rintro (hno | ⟨hsealed, hhidden, hlocked, ha⟩)
    · exact ⟨.inl hno, .inl hno⟩
    · have hl : ¬s.Lets d := by
        rw [lets_of_locked hlocked, Bool.not_eq_true]
        exact hhidden
      exact ⟨.inr ⟨hlocked, hsealed⟩, .inr ⟨ha, hl⟩⟩

/-- Another store, of locks, with one hidden constructor. -/
def locks : Store Journal Nat :=
  ({ serial := 2, world := [] } : Store Journal Nat).apply (.declare
    { name := "Lock", sort := .classType, modifiers := { isPublic := true },
      superclass := some .object,
      ctors := [{ params := [], body := notingBody }] })

theorem locks_reachable : locks.Reachable := (Reachable.initial 2 []).apply _

/-- The constructor of a lock. A sealed vault has the same handle and owner in its own store. -/
def hiddenLock : Ctor where
  handle := ⟨1⟩
  owner := ⟨100⟩
  params := []

/-- The store of locks has one constructor only, so it turns away the second one for vaults. -/
theorem turnsAway_iff_lock :
    locks.Reachable ∧ vaults.Describes hiddenVault ∧ locks.TurnsAway hiddenVault := by
  refine ⟨locks_reachable, rfl, locks_reachable.turnsAway_iff.mpr (.inl ?_)⟩
  rintro ⟨e, he, -⟩
  cases he

/-- The one for locks has the handle and the owner of the first one for vaults: the store of
vaults unlocks its own constructor for it, and then runs that one's body. -/
theorem not_turnsAway_lock :
    locks.Reachable ∧ vaults.Reachable ∧ locks.serial ≠ vaults.serial ∧
    locks.Describes hiddenLock ∧ ¬vaults.TurnsAway hiddenLock ∧
    ∃ s, (unlock hiddenLock).run vaults = (true, s) ∧
      ((instantiate hiddenLock []).runFrom s).1 =
        .ok { type := ⟨100⟩, identity := ⟨1, 0⟩, payload := 0 } := by
  refine ⟨locks_reachable, vaults_reachable, by decide, rfl, ?_, _, rfl, rfl⟩
  intro h
  cases h.unlock

end BestFit.Store
