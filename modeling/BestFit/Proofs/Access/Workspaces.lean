import BestFit.Workspace
import BestFit.Proofs.Construction.Calls

/-!
# Runs of a workspace

Requests turn to the members of a workspace, and to factories whose parts are played by different
members, in any order; between them, members are added. All that a request does to the members
that are there are operations of stores, one at a time (`moves_serve`). Which of them unlock, and
where, is told beforehand by the request (`Request.Unlocks`).
-/
namespace BestFit

namespace Store

variable {ω π : Type}

/-- An operation that may unlock. -/
def Operation.Unlocks : Operation ω π → Prop
  | .unlock _ => True
  | .declare _ | .arrayOf _ | .instantiate .. | .elsewhere _ => False

/-- Every other operation leaves the record of what was unlocked as it is. -/
theorem unlocked_apply_of_not_unlocks (s : Store ω π) {op : Operation ω π} (hop : ¬op.Unlocks) :
    (s.apply op).unlocked = s.unlocked := by
  cases op with
  | declare d => rcases s.apply_declare d with ⟨-, h⟩ | h <;> rw [h]; rfl
  | arrayOf x =>
    show ((arrayOf x).run s).2.unlocked = s.unlocked
    obtain ⟨_, -, h⟩ | ⟨-, d, -, -, h⟩ | ⟨-, -, h⟩ := s.arrayOf_cases x <;> rw [h]
  | unlock k => exact absurd trivial hop
  | instantiate k args =>
    obtain ⟨n, world, h⟩ := s.apply_instantiate k args
    rw [h]
  | elsewhere world => rfl

end Store

/-- Who plays which part in a factory over a workspace. -/
structure Parts where
  types : Nat
  makes : Nat
  unlocks : Unlocker
  policy : Policy := {}

namespace Workspace

open Relation (ReflTransGen)

open Failable (Keeps)

variable {ω π : Type} {w w' : Workspace ω π} {s s' : Store ω π} {p j : Nat} {opens : Nat → Prop}

/-- What may be asked of a workspace. -/
inductive Request (ω π : Type) where
  | addStore (world : ω)
  | addTable (tbl : TypeTable)
  /-- An operation of one store, on any description. -/
  | direct (place : Nat) (op : Store.Operation ω π)
  | arrayOf (types : Nat) (component : TypeHandle)
  | typesOf (types : Nat) (args : List (Datum π))
  | gather (types : Nat) (k : Ctor) (args : List (Datum π))
  | conform (types : Nat) (k : Ctor) (args : List (Datum π))
  | exactCtor (parts : Parts) (t : TypeHandle) (request : List TypeHandle)
  | bestCtor (parts : Parts) (t : TypeHandle) (request : List TypeHandle)
  | make (parts : Parts) (t : TypeHandle) (e : Entry π)

/-- The factory with the given parts. -/
def factoryOf (parts : Parts) : Factory (Workspace ω π) π :=
  factory parts.types parts.makes parts.unlocks parts.policy

/-- The workspace that a request leaves behind, whether it succeeds or not. -/
def serve (w : Workspace ω π) : Request ω π → Workspace ω π
  | .addStore world => w.addStore world
  | .addTable tbl => w.addTable tbl
  | .direct place op => ((onStore place () (modify (Store.apply · op))).run w).2
  | .arrayOf types x => (((source types).arrayOf x).run w).2
  | .typesOf types args => (((source types).typesOf args).run w).2
  | .gather types k args => (((source types).gather k args).runFrom w).2
  | .conform types k args => (((source types).conform k args).runFrom w).2
  | .exactCtor parts t request => (((factoryOf parts).exactCtor? t request).runFrom w).2
  | .bestCtor parts t request => (((factoryOf parts).bestCtor? t request).runFrom w).2
  | .make parts t e => ((e.make (factoryOf parts) t).runFrom w).2

/-- Whether a request may unlock constructors of the store at a place: it asks that store to, or
it is a request to a factory in which that store unlocks. An exact search unlocks nothing. -/
def Request.Unlocks (j : Nat) : Request ω π → Prop
  | .direct place op => place = j ∧ op.Unlocks
  | .bestCtor parts .. | .make parts .. => parts.unlocks = .store j
  | .addStore _ | .addTable _ | .arrayOf .. | .typesOf .. | .gather .. | .conform .. | .exactCtor .. =>
      False

/-- A request that adds a member. -/
def Request.Adds : Request ω π → Prop
  | .addStore _ | .addTable _ => True
  | _ => False

/-- The workspaces that come about from one without members. -/
inductive Reachable : Workspace ω π → Prop
  | initial : Reachable {}
  | serve {w : Workspace ω π} (h : Reachable w) (q : Request ω π) : Reachable (w.serve q)

/-- Any number of requests. -/
def Steps (w w' : Workspace ω π) : Prop := ReflTransGen (fun w w' => ∃ q, w' = w.serve q) w w'

/-! ## Places -/

theorem store?_eq_some : w.store? p = some s ↔ w.members[p]? = some (.store s) := by
  rw [store?, member?, Option.bind_eq_some_iff]
  constructor
  · rintro ⟨m, hm, hs⟩
    cases m with
    | store s' =>
      cases hs
      exact hm
    | table tbl => cases hs
  · exact fun h => ⟨_, h, rfl⟩

/-- What stands at a place after a store was put in the place of another. -/
theorem store?_replace (hs : w.store? p = some s) (s' : Store ω π) (j : Nat) :
    (w.replace p (.store s')).store? j = if p = j then some s' else w.store? j := by
  obtain ⟨hlt, -⟩ := List.getElem?_eq_some_iff.mp (store?_eq_some.mp hs)
  by_cases hj : p = j
  · subst hj
    simp [store?, member?, replace, hlt, Member.store?]
  · simp [store?, member?, replace, hj]

/-- A store of a larger workspace is the member that was added, or was there before. -/
theorem store?_addMember {m : Member ω π}
    (hj : ({ w with members := w.members ++ [m] } : Workspace ω π).store? j = some s) :
    w.store? j = some s ∨ m = .store s := by
  rw [store?_eq_some, List.getElem?_append] at hj
  split at hj
  · exact .inl (store?_eq_some.mpr hj)
  · obtain ⟨hlt, hget⟩ := List.getElem?_eq_some_iff.mp hj
    exact .inr (by simpa using hget)

theorem store?_append {l : List (Member ω π)} (hj : w.store? j = some s) :
    ({ w with members := w.members ++ l } : Workspace ω π).store? j = some s := by
  have h := store?_eq_some.mp hj
  obtain ⟨hlt, -⟩ := List.getElem?_eq_some_iff.mp h
  rw [store?_eq_some, List.getElem?_append_left hlt]
  exact h

/-- Working on the store at a place. -/
theorem run_onStore {α : Type} (hs : w.store? p = some s) (otherwise : α) (x : StateM (Store ω π) α) :
    (onStore p otherwise x).run w = ((x.run s).1, w.replace p (.store (x.run s).2)) := by
  show onStore p otherwise x w = _
  rw [onStore, hs]
  rfl

/-- Nothing is done where there is no store. -/
theorem run_onStore_of_none {α : Type} (hs : w.store? p = none) (otherwise : α)
    (x : StateM (Store ω π) α) : (onStore p otherwise x).run w = (otherwise, w) := by
  show onStore p otherwise x w = _
  rw [onStore, hs]

/-- Asking the member at a place for an array type. -/
theorem run_arrayOf {m : Member ω π} (hm : w.member? p = some m) (x : TypeHandle) :
    ((source p).arrayOf x).run w =
      (((Member.arrayOf x).run m).1, w.replace p ((Member.arrayOf x).run m).2) := by
  show (source p).arrayOf x w = _
  simp only [source, hm]
  rfl

theorem run_arrayOf_of_none (hm : w.member? p = none) (x : TypeHandle) :
    ((source p).arrayOf x).run w = (.absent, w) := by
  show (source p).arrayOf x w = _
  simp only [source, hm]

/-! ## Operations of the stores -/

/-- One operation of the store at some place; one that unlocks only where that is open. -/
inductive Acts (opens : Nat → Prop) (w : Workspace ω π) : Workspace ω π → Prop
  | operation {p : Nat} {s : Store ω π} (hs : w.store? p = some s) (op : Store.Operation ω π)
      (hop : op.Unlocks → opens p) : Acts opens w (w.replace p (.store (s.apply op)))

/-- Any number of operations of stores. -/
def Moves (opens : Nat → Prop) : Workspace ω π → Workspace ω π → Prop := ReflTransGen (Acts opens)

instance : Std.Refl (Moves opens : Workspace ω π → Workspace ω π → Prop) :=
  inferInstanceAs (Std.Refl (ReflTransGen (Acts opens)))

instance : IsTrans (Workspace ω π) (Moves opens) :=
  inferInstanceAs (IsTrans _ (ReflTransGen (Acts opens)))

/-- To work on the store at a place is an operation of that store, if that is what the work
comes to. -/
theorem moves_onStore {α : Type} {otherwise : α} {x : StateM (Store ω π) α} (op : Store.Operation ω π)
    (hop : op.Unlocks → opens p) (hx : ∀ s, (x.run s).2 = s.apply op) (w : Workspace ω π) :
    w.Moves opens ((onStore p otherwise x).run w).2 := by
  cases hs : w.store? p with
  | none =>
    rw [run_onStore_of_none hs]
    exact .refl
  | some s =>
    rw [run_onStore hs, hx]
    exact .single (.operation hs op hop)

/-- Asking a member for an array type is an operation if the member is a store, and does nothing
if it is a table. -/
theorem moves_arrayOf (p : Nat) (x : TypeHandle) (w : Workspace ω π) :
    w.Moves opens (((source p).arrayOf x).run w).2 := by
  cases hm : w.member? p with
  | none =>
    rw [run_arrayOf_of_none hm]
    exact .refl
  | some m =>
    rw [run_arrayOf hm]
    cases m with
    | store s => exact .single (.operation (store?_eq_some.mpr hm) (.arrayOf x) nofun)
    | table tbl =>
      have hself : w.replace p (.table tbl) = w := by
        obtain ⟨hlt, hget⟩ := List.getElem?_eq_some_iff.mp hm
        rw [replace, ← hget, List.set_getElem_self]
      show w.Moves opens (w.replace p (.table tbl))
      rw [hself]
      exact .refl

theorem moves_unlock (u : Unlocker) (k : Ctor) (w : Workspace ω π) :
    w.Moves (u = .store ·) ((unlock u k).run w).2 := by
  cases u with
  | store p =>
    refine moves_onStore (.unlock k) ?_ (fun _ => rfl) w
    exact fun _ => rfl
  | denyAll | grantAll => exact .refl

theorem keeps_instantiate (p : Nat) (k : Ctor) (args : List (Datum π)) :
    Keeps (Moves opens)
      (instantiate p k args : Failable (Workspace ω π) TargetFailure (Instance π)) :=
  moves_onStore (.instantiate k args) nofun fun _ => rfl

/-- All that a factory does are operations of stores, and only where it unlocks may they unlock. -/
theorem keepsTo_moves (parts : Parts) :
    (factoryOf parts : Factory (Workspace ω π) π).KeepsTo (Moves (parts.unlocks = .store ·)) where
  arrayOf := moves_arrayOf parts.types
  bestCtor? := (factoryOf parts).keeps_bestCtor? (moves_unlock parts.unlocks)
  instantiate := keeps_instantiate parts.makes

/-- A request that adds no member comes down to operations of stores. -/
theorem moves_serve (w : Workspace ω π) {q : Request ω π} (hq : ¬q.Adds) :
    w.Moves (q.Unlocks ·) (w.serve q) := by
  cases q with
  | addStore world | addTable tbl => exact absurd trivial hq
  | direct p op => exact moves_onStore op (fun hop => ⟨rfl, hop⟩) (fun _ => rfl) w
  | arrayOf p x => exact moves_arrayOf p x w
  | typesOf p args => exact (source p).keeps_typesOf (moves_arrayOf p) args w
  | gather p k args => exact (source p).keeps_gather (moves_arrayOf p) k args w
  | conform p k args => exact (source p).keeps_conform (moves_arrayOf p) k args w
  | exactCtor parts t request => exact (factoryOf parts).keeps_exactCtor? t request w
  | bestCtor parts t request => exact (keepsTo_moves parts).bestCtor? t request w
  | make parts t e => exact (keepsTo_moves parts).make t e w

/-! ## What a run keeps -/

/-- What one operation of one store keeps, any number of them keeps. -/
theorem Moves.invariant {P : Workspace ω π → Prop}
    (operation : ∀ (w : Workspace ω π) p s op, w.store? p = some s → P w →
      P (w.replace p (.store (s.apply op))))
    (h : w.Moves opens w') (hw : P w) : P w' := by
  induction h with
  | refl => exact hw
  | tail _ hlast ih =>
    obtain ⟨hs, op, -⟩ := hlast
    exact operation _ _ _ op hs ih

/-- What adding a member keeps, and one operation of one store, every run keeps. -/
theorem Reachable.invariant {P : Workspace ω π → Prop} (initial : P {})
    (addStore : ∀ w world, P w → P (w.addStore world)) (addTable : ∀ w tbl, P w → P (w.addTable tbl))
    (operation : ∀ (w : Workspace ω π) p s op, w.store? p = some s → P w →
      P (w.replace p (.store (s.apply op))))
    (hw : w.Reachable) : P w := by
  induction hw with
  | initial => exact initial
  | @serve w _ q ih =>
    by_cases hq : q.Adds
    · cases q with
      | addStore world => exact addStore w world ih
      | addTable tbl => exact addTable w tbl ih
      | _ => exact hq.elim
    · exact (moves_serve w hq).invariant operation ih

/-- A store that has moved: some operations on, and with the same record if its place was not
open. -/
theorem Moves.store? (h : w.Moves opens w') (hs : w.store? j = some s) :
    ∃ s', w'.store? j = some s' ∧ s.Steps s' ∧ (¬opens j → s'.unlocked = s.unlocked) := by
  induction h with
  | refl => exact ⟨s, hs, .refl s, fun _ => rfl⟩
  | @tail w₁ _ _ hlast ih =>
    obtain ⟨s₁, hs₁, hsteps, hrecord⟩ := ih
    obtain ⟨hp, op, hop⟩ := hlast
    rw [store?_replace hp]
    split
    · next hpj =>
      subst hpj
      obtain rfl := Option.some.inj (hp.symm.trans hs₁)
      refine ⟨_, rfl, hsteps.trans (.apply _ op), fun hclosed => ?_⟩
      rw [Store.unlocked_apply_of_not_unlocks _ (mt hop hclosed), hrecord hclosed]
    · exact ⟨s₁, hs₁, hsteps, hrecord⟩

/-- What a request leaves of a store: it stays in its place, and unless the request may unlock
there, it has unlocked what it had before. -/
theorem store?_serve (q : Request ω π) (hs : w.store? j = some s) :
    ∃ s', (w.serve q).store? j = some s' ∧ s.Steps s' ∧
      (¬q.Unlocks j → s'.unlocked = s.unlocked) := by
  by_cases hq : q.Adds
  · refine ⟨s, ?_, .refl s, fun _ => rfl⟩
    cases q with
    | addStore world | addTable tbl => exact store?_append hs
    | _ => exact hq.elim
  · exact (moves_serve w hq).store? hs

/-- A store stays in its place for good. -/
theorem Steps.store? (h : w.Steps w') (hs : w.store? j = some s) :
    ∃ s', w'.store? j = some s' ∧ s.Steps s' := by
  induction h with
  | refl => exact ⟨s, hs, .refl s⟩
  | tail _ hlast ih =>
    obtain ⟨s₁, hs₁, hsteps⟩ := ih
    obtain ⟨q, rfl⟩ := hlast
    obtain ⟨s₂, hs₂, hsteps₂, -⟩ := store?_serve q hs₁
    exact ⟨s₂, hs₂, hsteps.trans hsteps₂⟩

/-- The stores of a workspace come about by operations of their own. -/
theorem Reachable.store (hw : w.Reachable) (hs : w.store? j = some s) : s.Reachable := by
  refine hw.invariant (P := fun w => ∀ j s, w.store? j = some s → s.Reachable) ?_ ?_ ?_ ?_ j s hs
  · intro j s hs
    cases store?_eq_some.mp hs
  · intro w world ih j s hs
    rcases store?_addMember hs with hs | hs
    · exact ih j s hs
    · cases hs
      exact .initial _ _
  · intro w tbl ih j s hs
    rcases store?_addMember hs with hs | hs
    · exact ih j s hs
    · cases hs
  · intro w p s₁ op hp ih j s hs
    rw [store?_replace hp] at hs
    split at hs
    · cases hs
      exact (ih p s₁ hp).apply op
    · exact ih j s hs

/-! ## Serial numbers -/

/-- The serial number of a member that is a store. -/
def serial? (m : Member ω π) : Option Nat := m.store?.map Store.serial

/-- The serial numbers of the stores, in the order in which they were added. -/
def serials (w : Workspace ω π) : List Nat := w.stores.map Store.serial

theorem serials_eq (w : Workspace ω π) : w.serials = w.members.filterMap serial? :=
  List.map_filterMap

theorem serials_replace (hs : w.store? p = some s) (hserial : s'.serial = s.serial) :
    (w.replace p (.store s')).serials = w.serials := by
  have hmap : (w.replace p (.store s')).members.map serial? = w.members.map serial? := by
    obtain ⟨hlt, hget⟩ := List.getElem?_eq_some_iff.mp (store?_eq_some.mp hs)
    have hlt' : p < (w.members.map serial?).length := by simpa using hlt
    have hsame : (w.members.map serial?)[p] = serial? (.store s') := by
      rw [List.getElem_map, hget]
      exact congrArg some hserial.symm
    rw [replace, List.map_set, ← hsame, List.set_getElem_self]
  rw [serials_eq, serials_eq, ← Function.id_comp serial?, ← List.filterMap_map, hmap,
    List.filterMap_map]

/-- Stores are numbered from one on. -/
theorem Reachable.serials_eq (hw : w.Reachable) :
    w.serials = List.range' 1 w.serials.length := by
  refine hw.invariant (P := fun w => w.serials = List.range' 1 w.serials.length) rfl ?_ ?_ ?_
  · intro w world ih
    have hadd : (w.addStore world).serials = w.serials ++ [w.serials.length + 1] := by
      simp [serials, stores, addStore, Member.store?]
    rw [hadd, List.length_append, List.length_singleton, List.range'_1_concat, ← ih, Nat.add_comm]
  · intro w tbl ih
    have hadd : (w.addTable tbl).serials = w.serials := by
      simp [serials, stores, addTable, Member.store?]
    rw [hadd]
    exact ih
  · intro w p s op hs ih
    rw [serials_replace hs (Store.Grows.apply s op).serial]
    exact ih

/-- No two stores have the same serial number. -/
theorem Reachable.place_eq (hw : w.Reachable) (hp : w.store? p = some s)
    (hj : w.store? j = some s') (hserial : s.serial = s'.serial) : p = j := by
  have hnodup : w.serials.Nodup := hw.serials_eq ▸ List.nodup_range'
  rw [Workspace.serials_eq] at hnodup
  have hpairs := List.pairwise_iff_getElem.mp (List.pairwise_filterMap.mp hnodup)
  obtain ⟨hplt, hpget⟩ := List.getElem?_eq_some_iff.mp (store?_eq_some.mp hp)
  obtain ⟨hjlt, hjget⟩ := List.getElem?_eq_some_iff.mp (store?_eq_some.mp hj)
  have hpserial : serial? w.members[p] = some s.serial := by rw [hpget]; rfl
  have hjserial : serial? w.members[j] = some s'.serial := by rw [hjget]; rfl
  rcases Nat.lt_trichotomy p j with hlt | heq | hlt
  · exact absurd hserial (hpairs p j hplt hjlt hlt _ hpserial _ hjserial)
  · exact heq
  · exact absurd hserial.symm (hpairs j p hjlt hplt hlt _ hjserial _ hpserial)

end Workspace

end BestFit
