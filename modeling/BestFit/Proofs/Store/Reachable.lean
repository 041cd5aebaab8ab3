import BestFit.Proofs.Store.Invariant

/-!
# Reachable stores

The stores that come about by the operations of a store, in any order. Whoever asks to
unlock a constructor describes it, and the description may be false; `OwnReachable` leaves
such requests out. Main statements: `Reachable.wellFormed`, and `OwnReachable.unlocked`, no
sealed constructor is ever unlocked by true descriptions.
-/
namespace BestFit.Store

open Relation (ReflTransGen)

variable {ω π : Type} {s s' : Store ω π}

/-- What may be asked of a store. -/
inductive Operation (ω π : Type) where
  | declare (d : Definition ω π)
  | arrayOf (component : TypeHandle)
  | unlock (k : Ctor)
  | instantiate (k : Ctor) (args : List (Datum π))
  /-- Nothing is asked, but the world of the bodies has become another one. -/
  | elsewhere (world : ω)

/-- The store that an operation leaves behind, whether it succeeded or not. -/
def apply (s : Store ω π) : Operation ω π → Store ω π
  | .declare d =>
      match s.declare d with
      | .ok (_, s') => s'
      | .error _ => s
  | .arrayOf x => ((arrayOf x).run s).2
  | .unlock k => ((unlock k).run s).2
  | .instantiate k args => ((instantiate k args).runFrom s).2
  | .elsewhere world => { s with world }

/-- A description that the store itself gave. -/
def Describes (s : Store ω π) (k : Ctor) : Prop := s.ctor? k.handle = some k

/-- An operation that unlocks, if anything, what the store describes so. -/
def Operation.IsOwn (s : Store ω π) : Operation ω π → Prop
  | .unlock k => s.Describes k
  | .declare _ | .arrayOf _ | .instantiate .. | .elsewhere _ => True

/-- One operation. -/
def Step (s s' : Store ω π) : Prop := ∃ op : Operation ω π, s' = s.apply op

/-- Any number of operations. -/
def Steps (s s' : Store ω π) : Prop := ReflTransGen Step s s'

/-- One operation on true descriptions. -/
def OwnStep (s s' : Store ω π) : Prop := ∃ op : Operation ω π, op.IsOwn s ∧ s' = s.apply op

/-- Any number of operations on true descriptions. -/
def OwnSteps (s s' : Store ω π) : Prop := ReflTransGen OwnStep s s'

/-- The stores that come about from nothing but the built-in types. -/
inductive Reachable : Store ω π → Prop
  | initial (serial : Nat) (world : ω) : Reachable { serial, world }
  | apply {s : Store ω π} (h : Reachable s) (op : Operation ω π) : Reachable (s.apply op)

/-- The stores that come about by operations on true descriptions. -/
inductive OwnReachable : Store ω π → Prop
  | initial (serial : Nat) (world : ω) : OwnReachable { serial, world }
  | apply {s : Store ω π} (h : OwnReachable s) {op : Operation ω π} (hop : op.IsOwn s) :
      OwnReachable (s.apply op)

/-! ## One operation -/

theorem apply_declare (s : Store ω π) (d : Definition ω π) :
    (s.Admits d ∧ s.apply (.declare d) = s.declared d) ∨ s.apply (.declare d) = s := by
  cases hd : s.declare d with
  | error e => exact .inr (by simp [apply, hd])
  | ok r =>
    obtain ⟨t, s'⟩ := r
    obtain ⟨hadm, -, rfl⟩ := declare_eq_ok.mp hd
    exact .inl ⟨hadm, by simp [apply, hd]⟩

theorem apply_instantiate (s : Store ω π) (k : Ctor) (args : List (Datum π)) :
    ∃ n world, s.apply (.instantiate k args) = { s with made := n, world } := by
  show ∃ n world, ((instantiate k args).runFrom s).2 = { s with made := n, world }
  rw [runFrom_instantiate]
  cases s.bodyFor k with
  | error e => exact ⟨s.made, s.world, rfl⟩
  | ok body =>
    cases hr : (body args).runFrom s.world with
    | mk r world =>
      cases r with
      | error cause => exact ⟨s.made, world, by simp only [hr]⟩
      | ok payload => exact ⟨s.made + 1, world, by simp only [hr]⟩

theorem Grows.ran (s : Store ω π) (n : Nat) (world : ω) :
    s.Grows { s with made := n, world } :=
  ⟨rfl, id, id, id⟩

theorem Grows.apply (s : Store ω π) (op : Operation ω π) : s.Grows (s.apply op) := by
  cases op with
  | declare d =>
    rcases s.apply_declare d with ⟨-, h⟩ | h <;> rw [h]
    · exact .declared s d
    · exact .refl s
  | arrayOf x => exact .arrayOf s x
  | unlock k => exact .unlock s k
  | instantiate k args =>
    obtain ⟨n, world, h⟩ := s.apply_instantiate k args
    rw [h]
    exact .ran s n world
  | elsewhere world => exact .ran s s.made world

theorem WellFormed.apply (hs : s.WellFormed) (op : Operation ω π) :
    (s.apply op).WellFormed := by
  cases op with
  | declare d =>
    rcases s.apply_declare d with ⟨hd, h⟩ | h <;> rw [h]
    · exact hs.declared hd
    · exact hs
  | arrayOf x => exact hs.arrayOf x
  | unlock k => exact hs.unlock k
  | instantiate k args =>
    obtain ⟨n, world, h⟩ := s.apply_instantiate k args
    rw [h]
    exact hs.ran n world
  | elsewhere world => exact hs.ran s.made world

/-! ## Runs -/

/-- Every reachable store is well-formed. -/
theorem Reachable.wellFormed (h : s.Reachable) : s.WellFormed := by
  induction h with
  | initial serial world => exact .initial serial world
  | apply _ op ih => exact ih.apply op

theorem OwnReachable.reachable (h : s.OwnReachable) : s.Reachable := by
  induction h with
  | initial serial world => exact .initial serial world
  | apply _ _ ih => exact ih.apply _

theorem OwnReachable.wellFormed (h : s.OwnReachable) : s.WellFormed :=
  h.reachable.wellFormed

theorem OwnReachable.declare (h : s.OwnReachable) (d : Definition ω π) :
    (s.apply (.declare d)).OwnReachable := h.apply trivial

theorem OwnReachable.arrayOf (h : s.OwnReachable) (x : TypeHandle) :
    (s.apply (.arrayOf x)).OwnReachable := h.apply trivial

namespace Steps

theorem refl (s : Store ω π) : s.Steps s := ReflTransGen.refl

theorem apply (s : Store ω π) (op : Operation ω π) : s.Steps (s.apply op) :=
  ReflTransGen.single ⟨op, rfl⟩

theorem trans {s'' : Store ω π} (h : s.Steps s') (h' : s'.Steps s'') : s.Steps s'' :=
  ReflTransGen.trans h h'

/-- What every operation keeps, a run of them keeps. -/
theorem invariant {P : Store ω π → Prop}
    (hstep : ∀ (s : Store ω π) (op : Operation ω π), P s → P (s.apply op))
    (h : s.Steps s') (hs : P s) : P s' := by
  induction h with
  | refl => exact hs
  | tail _ hlast ih =>
    obtain ⟨op, rfl⟩ := hlast
    exact hstep _ op ih

variable (h : s.Steps s')
include h

theorem grows : s.Grows s' :=
  h.invariant (P := s.Grows) (fun s₁ op hs₁ => hs₁.trans (.apply s₁ op)) (.refl s)

theorem wellFormed (hs : s.WellFormed) : s'.WellFormed :=
  h.invariant (fun _ op hs₁ => hs₁.apply op) hs

theorem reachable (hs : s.Reachable) : s'.Reachable :=
  h.invariant (fun _ op hs₁ => hs₁.apply op) hs

end Steps

namespace OwnSteps

theorem refl (s : Store ω π) : s.OwnSteps s := ReflTransGen.refl

theorem unlock {k : Ctor} (hk : s.Describes k) : s.OwnSteps ((Store.unlock k).run s).2 :=
  ReflTransGen.single ⟨.unlock k, hk, rfl⟩

theorem trans {s'' : Store ω π} (h : s.OwnSteps s') (h' : s'.OwnSteps s'') : s.OwnSteps s'' :=
  ReflTransGen.trans h h'

theorem arrayOf (s : Store ω π) (x : TypeHandle) : s.OwnSteps ((Store.arrayOf x).run s).2 :=
  ReflTransGen.single ⟨.arrayOf x, trivial, rfl⟩

/-- What every operation on true descriptions keeps, a run of them keeps. -/
theorem invariant {P : Store ω π → Prop}
    (hstep : ∀ (s : Store ω π) (op : Operation ω π), op.IsOwn s → P s → P (s.apply op))
    (h : s.OwnSteps s') (hs : P s) : P s' := by
  induction h with
  | refl => exact hs
  | tail _ hlast ih =>
    obtain ⟨op, hop, rfl⟩ := hlast
    exact hstep _ op hop ih

variable (h : s.OwnSteps s')
include h

theorem steps : s.Steps s' := ReflTransGen.mono (fun _ _ ⟨op, _, h⟩ => ⟨op, h⟩) _ _ h

theorem grows : s.Grows s' := h.steps.grows

theorem wellFormed (hs : s.WellFormed) : s'.WellFormed := h.steps.wellFormed hs

theorem reachable (hs : s.Reachable) : s'.Reachable := h.steps.reachable hs

theorem ownReachable (hs : s.OwnReachable) : s'.OwnReachable :=
  h.invariant (fun _ _ hop hs₁ => hs₁.apply hop) hs

end OwnSteps

/-! ## What is unlocked -/

/-- One operation unlocks one constructor at most, as described and not sealed. -/
theorem unlocked_apply {op : Operation ω π} {j : CtorHandle} (hj : j ∈ (s.apply op).unlocked) :
    j ∈ s.unlocked ∨ ∃ k, op = .unlock k ∧ j = k.handle ∧ k.isSealed = false := by
  -- the record is written by one branch of one operation; all others leave it as it is
  cases op with
  | declare d =>
    rcases s.apply_declare d with ⟨-, h⟩ | h <;> rw [h] at hj
    · exact .inl hj
    · exact .inl hj
  | arrayOf x =>
    change j ∈ ((arrayOf x).run s).2.unlocked at hj
    obtain ⟨_, -, h⟩ | ⟨-, d, -, -, h⟩ | ⟨-, -, h⟩ := s.arrayOf_cases x <;> rw [h] at hj
    · exact .inl hj
    · exact .inl hj
    · exact .inl hj
  | unlock k =>
    change j ∈ ((unlock k).run s).2.unlocked at hj
    obtain ⟨-, h⟩ | ⟨-, -, h⟩ | ⟨-, -, -, h⟩ | ⟨-, -, hsealed, h⟩ := s.unlock_cases k <;>
      rw [h] at hj
    · exact .inl hj
    · exact .inl hj
    · exact .inl hj
    · rcases List.mem_cons.mp hj with rfl | hj
      · exact .inr ⟨k, rfl, rfl, hsealed⟩
      · exact .inl hj
  | instantiate k args =>
    obtain ⟨n, world, h⟩ := s.apply_instantiate k args
    rw [h] at hj
    exact .inl hj
  | elsewhere world => exact .inl hj

/-- What true descriptions unlocked is stored, and not sealed. -/
theorem OwnReachable.unlocked (h : s.OwnReachable) {j : CtorHandle} (hj : j ∈ s.unlocked) :
    ∃ k, s.ctor? j = some k ∧ k.isSealed = false := by
  induction h with
  | initial serial world => cases hj
  | @apply s _ op hop ih =>
    rcases unlocked_apply hj with hj | ⟨k, rfl, rfl, hsealed⟩
    · -- unlocked before: the description under the handle is kept by growth
      obtain ⟨k, hk, hsealed⟩ := ih hj
      exact ⟨k, (Grows.apply s op).ctor? hk, hsealed⟩
    · exact ⟨k, (Grows.apply s _).ctor? hop, hsealed⟩

/-- What the store describes as sealed is locked. -/
theorem OwnReachable.locked_of_sealed (h : s.OwnReachable) {k : Ctor} (hk : s.Describes k)
    (hsealed : k.isSealed = true) : s.isUnlocked k.handle = false := by
  rw [isUnlocked_eq_false]
  intro hu
  obtain ⟨j, hj, hopen⟩ := h.unlocked hu
  obtain rfl := Option.some.inj (hk.symm.trans hj)
  rw [hsealed] at hopen
  cases hopen

theorem owns_of_describes {k : Ctor} (hk : s.Describes k) : s.owns k = true := by
  obtain ⟨e, he, hek⟩ := Option.map_eq_some_iff.mp hk
  rw [owns, he, Option.any_some, hek]
  exact beq_self_eq_true _

/-- What a store describes, it unlocks unless that is sealed, or unlocked already. -/
theorem unlock_described {k : Ctor} (hk : s.Describes k) :
    ∃ s', (Store.unlock k).run s = (s.isUnlocked k.handle || !k.isSealed, s') ∧
      s'.catalog = s.catalog ∧
      ((s.isUnlocked k.handle || !k.isSealed) = true → k.handle ∈ s'.unlocked) := by
  obtain ⟨ho, -⟩ | ⟨-, hu, h⟩ | ⟨-, hu, hsealed, h⟩ | ⟨-, hu, hsealed, h⟩ := s.unlock_cases k
  · rw [owns_of_describes hk] at ho
    cases ho
  · rw [h, hu]
    exact ⟨s, rfl, rfl, fun _ => isUnlocked_iff.mp hu⟩
  · rw [h, hu, hsealed]
    refine ⟨s, rfl, rfl, ?_⟩
    intro hno
    cases hno
  · rw [h, hu, hsealed]
    exact ⟨_, rfl, rfl, fun _ => List.mem_cons_self⟩

/-- A world that remembers the lists that bodies were applied to, last one last. -/
abbrev Journal := List (List (Datum Nat))

/-- A body that notes the list it is applied to, and holds how many arguments there are. -/
def notingBody : Body Journal Nat := fun args => do
  modify (· ++ [args])
  return args.length

/-- A store with animals, dogs, arrays of animals, and kennels. A kennel is made for a dog,
for an animal or for any number of animals; the constructor for a dog is not public. -/
def kennels : Store Journal Nat :=
  ({ serial := 1, world := [] } : Store Journal Nat)
    |>.apply (.declare
        { name := "Animal", sort := .classType, modifiers := { isPublic := true },
          superclass := some .object })
    |>.apply (.declare
        { name := "Dog", sort := .classType, modifiers := { isPublic := true },
          superclass := some ⟨100⟩ })
    |>.apply (.arrayOf ⟨100⟩)
    |>.apply (.declare
        { name := "Kennel", sort := .classType, modifiers := { isPublic := true },
          superclass := some .object,
          ctors :=
            [ { params := [⟨101⟩], body := notingBody },
              { params := [⟨100⟩], modifiers := { isPublic := true },
                body := notingBody },
              { params := [⟨102⟩], modifiers := { isPublic := true, isVariadic := true },
                body := notingBody } ] })

/-- The constructor of a kennel for any number of animals. -/
def kennelOfAny : Ctor :=
  { handle := ⟨3⟩, owner := ⟨103⟩, params := [⟨102⟩],
    modifiers := { isPublic := true, isVariadic := true } }

/-- Two dogs, made elsewhere. -/
def twoDogs : List (Datum Nat) :=
  [.object ⟨⟨101⟩, ⟨1, 0⟩, 0⟩, .object ⟨⟨101⟩, ⟨1, 1⟩, 0⟩]

theorem kennels_ownReachable : kennels.OwnReachable :=
  OwnReachable.initial 1 [] |>.declare _ |>.declare _ |>.arrayOf _ |>.declare _

/-! ## Declared constructors -/

/-- The declared constructors of a type, read off its declaration. -/
theorem mem_ctorsOf {t : TypeHandle} {k : Ctor} :
    k ∈ s.catalog.ctorsOf t ↔
      ∃ d, s.decl? t = some d ∧ ∃ j ∈ d.ctors, ∃ e, s.entry? j = some e ∧ e.ctor = k := by
  cases hd : s.decl? t with
  | none => simp [Catalog.ctorsOf, hd]
  | some d => simp [Catalog.ctorsOf, hd, List.mem_filterMap, ctor?]

/-- A declared constructor is described by the store, and belongs to its type. -/
theorem WellFormed.of_mem_ctorsOf (hs : s.WellFormed) {t : TypeHandle} {k : Ctor}
    (hk : k ∈ s.catalog.ctorsOf t) : s.Describes k ∧ k.owner = t := by
  obtain ⟨d, hd, j, hj, e, he, rfl⟩ := mem_ctorsOf.mp hk
  obtain ⟨e', he', howner⟩ := (hs.decls hd).ctors j hj
  obtain rfl := Option.some.inj (he.symm.trans he')
  refine ⟨?_, howner⟩
  rw [Describes, (hs.entries he).handle, ctor?, he]
  rfl

/-- No constructor is declared twice. -/
theorem WellFormed.nodup_ctorsOf (hs : s.WellFormed) (t : TypeHandle) :
    (s.catalog.ctorsOf t).Nodup := by
  unfold Catalog.ctorsOf
  cases hd : s.catalog.decl? t with
  | none => exact List.nodup_nil
  | some d =>
    refine (hs.decls hd).ctors_nodup.filterMap ?_
    -- a stored constructor tells the handle that it is stored under
    intro i j k hi hj
    obtain ⟨e, he, rfl⟩ := Option.map_eq_some_iff.mp hi
    obtain ⟨f, hf, hef⟩ := Option.map_eq_some_iff.mp hj
    rw [← (hs.entries he).handle, ← (hs.entries hf).handle, hef]

/-- A type declares no two constructors with the same parameters. -/
theorem WellFormed.ctor_eq_of_params (hs : s.WellFormed) {t : TypeHandle} {j k : Ctor}
    (hj : j ∈ s.catalog.ctorsOf t) (hk : k ∈ s.catalog.ctorsOf t)
    (hp : j.params = k.params) : j = k := by
  obtain ⟨d, hd, a, ha, e, he, rfl⟩ := mem_ctorsOf.mp hj
  obtain ⟨d', hd', b, hb, f, hf, rfl⟩ := mem_ctorsOf.mp hk
  obtain rfl := Option.some.inj (hd.symm.trans hd')
  obtain rfl := (hs.decls hd).signatures a ha b hb e f he hf hp
  obtain rfl := Option.some.inj (he.symm.trans hf)
  rfl

/-- The parameters of a stored constructor can be held. -/
theorem WellFormed.canHold_params (hs : s.WellFormed) {k : Ctor} (hk : s.Describes k)
    {p : TypeHandle} (hp : p ∈ k.params) : s.canHold p = true := by
  obtain ⟨e, he, rfl⟩ := Option.map_eq_some_iff.mp hk
  exact (hs.entries he).params p hp

end BestFit.Store
