import BestFit.Proofs.Access.Workspaces

/-!
# Unlocking in a workspace

Handles of constructors repeat from store to store, so one table of everything that was unlocked
has to name the store along with the constructor. The stores of a workspace keep such a table
between them, its `ledger`. `Scoped` says that it works as a single table would: each store finds
its own constructors in it and no others, and nothing that is done elsewhere adds to them. Main
statement: `Workspace.Reachable.scoped`.
-/
namespace BestFit

/-- A constructor of one particular store. -/
structure Key where
  serial : Nat
  ctor : CtorHandle
deriving DecidableEq, Repr

namespace Store

variable {ω π : Type} (s : Store ω π)

/-- The key of a constructor of this store. -/
def keyOf (k : CtorHandle) : Key := ⟨s.serial, k⟩

/-- What the store has unlocked. -/
def keys : List Key := s.unlocked.map s.keyOf

/-- To unlock a constructor, with a table for all stores in place of the store's own record. -/
def unlockIn (k : Ctor) : StateM (List Key) Bool := fun keys =>
  if !s.owns k then (false, keys)
  else if keys.contains (s.keyOf k.handle) then (true, keys)
  else if k.isSealed then (false, keys)
  else (true, s.keyOf k.handle :: keys)

end Store

namespace Workspace

variable {ω π : Type} {w w' : Workspace ω π} {s s' : Store ω π} {j : Nat} {key : Key}

/-- What the stores have unlocked, in one table. -/
def ledger (w : Workspace ω π) : List Key := w.stores.flatMap Store.keys

/-- What one table of everything that was unlocked shows of the stores in a workspace, and how it
changes. -/
structure Scoped (w : Workspace ω π) : Prop where
  /-- A store has unlocked what the table says under its serial number, no more and no less. -/
  own : ∀ j s, w.store? j = some s → ∀ k, s.keyOf k ∈ w.ledger ↔ s.isUnlocked k = true
  /-- What the table says under the serial number of a store, this store has declared. -/
  declared : ∀ j s, w.store? j = some s → ∀ key ∈ w.ledger, key.serial = s.serial →
    ∃ k, s.ctor? key.ctor = some k
  /-- There are no other serial numbers in it. -/
  issued : ∀ key ∈ w.ledger, ∃ j s, w.store? j = some s ∧ key.serial = s.serial
  /-- A store unlocks as if by the table. -/
  recorded : ∀ j s, w.store? j = some s → ∀ k,
    ((unlock (.store j) k).run w).1 = ((s.unlockIn k).run w.ledger).1 ∧
      ∀ key, key ∈ ((unlock (.store j) k).run w).2.ledger ↔
        key ∈ ((s.unlockIn k).run w.ledger).2
  /-- A request in which some store does not unlock, whatever other part it plays in it, changes
  nothing of what this store has unlocked. -/
  scope : ∀ j s, w.store? j = some s → ∀ q : Request ω π, ¬q.Unlocks j →
    (∃ s', (w.serve q).store? j = some s' ∧ s'.serial = s.serial ∧ s'.unlocked = s.unlocked) ∧
      ∀ k, s.keyOf k ∈ (w.serve q).ledger ↔ s.keyOf k ∈ w.ledger
  /-- What was unlocked stays so. -/
  permanent : ∀ w', w.Steps w' → w.ledger ⊆ w'.ledger ∧
    ∀ j s, w.store? j = some s → ∃ s', w'.store? j = some s' ∧ s'.serial = s.serial ∧
      ∀ k, s.isUnlocked k = true → s'.isUnlocked k = true

/-! ## The table -/

theorem mem_ledger :
    key ∈ w.ledger ↔ ∃ j s, w.store? j = some s ∧ key.serial = s.serial ∧ key.ctor ∈ s.unlocked := by
  have hkeys : ∀ s : Store ω π, key ∈ s.keys ↔ key.serial = s.serial ∧ key.ctor ∈ s.unlocked := by
    intro s
    rw [Store.keys, List.mem_map]
    constructor
    · rintro ⟨k, hk, rfl⟩
      exact ⟨rfl, hk⟩
    · rintro ⟨hserial, hk⟩
      exact ⟨key.ctor, hk, by rw [Store.keyOf, ← hserial]⟩
  rw [ledger, List.mem_flatMap]
  constructor
  · rintro ⟨s, hs, hk⟩
    obtain ⟨m, hm, hms⟩ := List.mem_filterMap.mp hs
    obtain ⟨j, hj⟩ := List.mem_iff_getElem?.mp hm
    exact ⟨j, s, by rw [store?, member?, hj]; exact hms, (hkeys s).mp hk⟩
  · rintro ⟨j, s, hs, hk⟩
    exact ⟨s, List.mem_filterMap.mpr ⟨_, List.mem_of_getElem? (store?_eq_some.mp hs), rfl⟩,
      (hkeys s).mpr hk⟩

/-- The table after a store has unlocked more. -/
theorem mem_ledger_replace (hs : w.store? j = some s) (hserial : s'.serial = s.serial)
    (hsub : s.unlocked ⊆ s'.unlocked) :
    key ∈ (w.replace j (.store s')).ledger ↔
      key.serial = s.serial ∧ key.ctor ∈ s'.unlocked ∨ key ∈ w.ledger := by
  rw [mem_ledger, mem_ledger]
  constructor
  · rintro ⟨i, r, hr, hkey, hk⟩
    rw [store?_replace hs] at hr
    split at hr
    · cases hr
      exact .inl ⟨hkey.trans hserial, hk⟩
    · exact .inr ⟨i, r, hr, hkey, hk⟩
  · have hself : (w.replace j (.store s')).store? j = some s' := by
      rw [store?_replace hs, if_pos rfl]
    rintro (⟨hkey, hk⟩ | ⟨i, r, hr, hkey, hk⟩)
    · exact ⟨j, s', hself, hkey.trans hserial.symm, hk⟩
    · by_cases hij : j = i
      · subst hij
        obtain rfl := Option.some.inj (hs.symm.trans hr)
        exact ⟨j, s', hself, hkey.trans hserial.symm, hsub hk⟩
      · exact ⟨i, r, by rw [store?_replace hs, if_neg hij]; exact hr, hkey, hk⟩

/-- As no two stores have the same serial number, a key tells whose it is. -/
theorem Reachable.keyOf_mem_ledger (hw : w.Reachable) (hs : w.store? j = some s) (k : CtorHandle) :
    s.keyOf k ∈ w.ledger ↔ s.isUnlocked k = true := by
  rw [mem_ledger, Store.isUnlocked_iff]
  constructor
  · rintro ⟨i, r, hr, hserial, hk⟩
    obtain rfl := hw.place_eq hs hr hserial
    obtain rfl := Option.some.inj (hs.symm.trans hr)
    exact hk
  · exact fun hk => ⟨j, s, hs, rfl, hk⟩

/-- To unlock in a store and to unlock with the table come to the same. -/
theorem Reachable.unlock_agrees (hw : w.Reachable) (hs : w.store? j = some s) (k : Ctor) :
    ((unlock (.store j) k).run w).1 = ((s.unlockIn k).run w.ledger).1 ∧
      ∀ key, key ∈ ((unlock (.store j) k).run w).2.ledger ↔
        key ∈ ((s.unlockIn k).run w.ledger).2 := by
  have hrun : (unlock (.store j) k).run w =
      (((Store.unlock k).run s).1, w.replace j (.store ((Store.unlock k).run s).2)) :=
    run_onStore hs false (Store.unlock k)
  have hcontains : w.ledger.contains (s.keyOf k.handle) = s.isUnlocked k.handle := by
    rw [Bool.eq_iff_iff, List.contains_iff_mem]
    exact hw.keyOf_mem_ledger hs k.handle
  -- where the record stays as it is, so does the table
  have hsame : ∀ key, key ∈ (w.replace j (.store s)).ledger ↔ key ∈ w.ledger := by
    intro key
    rw [mem_ledger_replace hs rfl (List.Subset.refl _), or_iff_right_iff_imp, mem_ledger]
    exact fun ⟨hkey, hk⟩ => ⟨j, s, hs, hkey, hk⟩
  rw [hrun]
  show _ = (s.unlockIn k w.ledger).1 ∧ ∀ key, _ ↔ key ∈ (s.unlockIn k w.ledger).2
  rw [Store.unlockIn, hcontains]
  obtain ⟨ho, h⟩ | ⟨ho, hu, h⟩ | ⟨ho, hu, hsealed, h⟩ | ⟨ho, hu, hsealed, h⟩ := s.unlock_cases k
  · simp only [h, ho]
    exact ⟨rfl, hsame⟩
  · simp only [h, ho, hu]
    exact ⟨rfl, hsame⟩
  · simp only [h, ho, hu, hsealed]
    exact ⟨rfl, hsame⟩
  · simp only [h, ho, hu, hsealed]
    refine ⟨rfl, fun key => ?_⟩
    refine (mem_ledger_replace hs ?_ ?_).trans ?_
    · rfl
    · exact List.subset_cons_self _ _
    show _ ↔ key ∈ s.keyOf k.handle :: w.ledger
    rw [List.mem_cons, List.mem_cons]
    constructor
    · rintro (⟨hkey, hk | hk⟩ | hkey)
      · left
        rw [Store.keyOf, ← hkey, ← hk]
      · exact .inr (mem_ledger.mpr ⟨j, s, hs, hkey, hk⟩)
      · exact .inr hkey
    · rintro (rfl | hkey)
      · exact .inl ⟨rfl, .inl rfl⟩
      · exact .inr hkey

/-! ## All of it -/

/-- Unlocking is scoped and lasts, in whatever way a workspace came about. -/
theorem Reachable.scoped (hw : w.Reachable) : w.Scoped where
  own j s hs k := hw.keyOf_mem_ledger hs k
  declared := by
    intro j s hs key hkey hserial
    have hk : key.ctor ∈ s.unlocked := by
      rw [← Store.isUnlocked_iff, ← hw.keyOf_mem_ledger hs, Store.keyOf, ← hserial]
      exact hkey
    obtain ⟨e, he⟩ := (hw.store hs).wellFormed.unlocked hk
    exact ⟨e.ctor, congrArg (Option.map StoredCtor.ctor) he⟩
  issued := by
    intro key hkey
    obtain ⟨j, s, hs, hserial, -⟩ := mem_ledger.mp hkey
    exact ⟨j, s, hs, hserial⟩
  recorded j s hs k := hw.unlock_agrees hs k
  scope := by
    intro j s hs q hq
    obtain ⟨s', hs', hsteps, hrecord⟩ := store?_serve q hs
    have hserial := hsteps.grows.serial
    refine ⟨⟨s', hs', hserial, hrecord hq⟩, fun k => ?_⟩
    have hkey : s.keyOf k = s'.keyOf k := by rw [Store.keyOf, Store.keyOf, hserial]
    rw [hw.keyOf_mem_ledger hs, hkey, (hw.serve q).keyOf_mem_ledger hs', Store.isUnlocked_iff,
      Store.isUnlocked_iff, hrecord hq]
  permanent := by
    intro w' h
    have hstore : ∀ j s, w.store? j = some s → ∃ s', w'.store? j = some s' ∧
        s'.serial = s.serial ∧ ∀ k, k ∈ s.unlocked → k ∈ s'.unlocked := by
      intro j s hs
      obtain ⟨s', hs', hsteps⟩ := h.store? hs
      exact ⟨s', hs', hsteps.grows.serial, fun k hk => hsteps.grows.unlocked hk⟩
    constructor
    · intro key hkey
      obtain ⟨j, s, hs, hserial, hk⟩ := mem_ledger.mp hkey
      obtain ⟨s', hs', hserial', hkept⟩ := hstore j s hs
      exact mem_ledger.mpr ⟨j, s', hs', hserial.trans hserial'.symm, hkept _ hk⟩
    · intro j s hs
      obtain ⟨s', hs', hserial, hkept⟩ := hstore j s hs
      simp only [Store.isUnlocked_iff]
      exact ⟨s', hs', hserial, hkept⟩

/-- Vaults, with one constructor that is hidden. -/
def vaultDefinition : Definition Store.Journal Nat where
  name := "Vault"
  sort := .classType
  modifiers := { isPublic := true }
  superclass := some .object
  ctors := [{ params := [], body := Store.notingBody }]

/-- Two stores with the same vaults, so with the same handles. -/
def twins : Workspace Store.Journal Nat :=
  ({} : Workspace Store.Journal Nat)
    |>.serve (.addStore [])
    |>.serve (.addStore [])
    |>.serve (.direct 0 (.declare vaultDefinition))
    |>.serve (.direct 1 (.declare vaultDefinition))

/-- A search among the vaults of the first store, with the second store to unlock. -/
def crossSearch : Request Store.Journal Nat :=
  .bestCtor { types := 0, makes := 0, unlocks := .store 1 } ⟨100⟩ []

theorem twins_reachable : twins.Reachable :=
  Reachable.initial |>.serve _ |>.serve _ |>.serve _ |>.serve _

/-- The search unlocks a vault of the second store, which is still unlocked after another store was
added; in the first store, the vault with the same handle stays locked. -/
theorem scoped_twins :
    twins.Reachable ∧ twins.Scoped ∧ (twins.serve crossSearch).ledger = [⟨2, ⟨1⟩⟩] ∧
    (∃ s, twins.store? 0 = some s ∧ s.serial = 1 ∧ s.keyOf ⟨1⟩ ∉ (twins.serve crossSearch).ledger) ∧
    ⟨2, ⟨1⟩⟩ ∈ ((twins.serve crossSearch).serve (.addStore [])).ledger := by
  have hledger : (twins.serve crossSearch).ledger = [⟨2, ⟨1⟩⟩] := by decide
  have hscoped := twins_reachable.scoped
  refine ⟨twins_reachable, hscoped, hledger, ⟨_, rfl, rfl, ?_⟩, ?_⟩
  · rw [(hscoped.scope 0 _ rfl crossSearch (by rintro ⟨⟩)).2, hscoped.own 0 _ rfl]
    decide
  · have hsteps : (twins.serve crossSearch).Steps ((twins.serve crossSearch).serve (.addStore [])) :=
      .single ⟨_, rfl⟩
    refine ((twins_reachable.serve crossSearch).scoped.permanent _ hsteps).1 ?_
    rw [hledger]
    exact List.mem_singleton_self _

end Workspace

end BestFit
