import BestFit.Store.Declaring
import BestFit.Store.Instantiation

/-!
# Growth of a store

What each operation of a store does to what is stored. `Grows` relates a store to every
later state of it: nothing stored is lost or changed. `arrayOf_cases` and `declare_eq_ok`
say once what asking for an array type and declaring come to, and `check_eq_ok` says
which definitions pass the checks.
-/
namespace BestFit

/-! ## Runs that may fail -/

theorem bind_unit_eq_ok {ε β : Type} {x : Except ε Unit} {f : Unit → Except ε β} {b : β} :
    (x >>= f) = .ok b ↔ x = .ok () ∧ f () = .ok b := by
  cases x <;> simp [bind, Except.bind]

theorem listForM_eq_ok {ε α : Type} {f : α → Except ε Unit} {l : List α} :
    l.forM f = .ok () ↔ ∀ a ∈ l, f a = .ok () := by
  induction l with
  | nil => simp [List.forM, pure, Except.pure]
  | cons a l ih =>
    change (f a >>= fun _ => l.forM f) = .ok () ↔ _
    rw [bind_unit_eq_ok, ih, List.forall_mem_cons]

theorem optionForM_eq_ok {ε α : Type} {f : α → Except ε Unit} {o : Option α} :
    o.forM f = .ok () ↔ ∀ a, o = some a → f a = .ok () := by
  cases o <;> simp [Option.forM, pure, Except.pure]

namespace Store

variable {ω π : Type} {s s' : Store ω π}

@[simp] theorem catalog_decl? (s : Store ω π) (t : TypeHandle) : s.catalog.decl? t = s.decl? t :=
  rfl

@[simp] theorem catalog_ctor? (s : Store ω π) (k : CtorHandle) : s.catalog.ctor? k = s.ctor? k :=
  rfl

theorem contains_iff {t : TypeHandle} :
    s.catalog.contains t = true ↔ ∃ d, s.decl? t = some d :=
  s.catalog.contains_iff t

theorem component?_eq_some {t x : TypeHandle} :
    s.catalog.component? t = some x ↔ ∃ d, s.decl? t = some d ∧ d.shape = .array x := by
  simp only [Catalog.component?, Option.bind_eq_some_iff, catalog_decl?]
  refine exists_congr fun d => and_congr_right fun _ => ?_
  cases hs : d.shape <;> simp [TypeDecl.component?, hs]

theorem canHold_iff {t : TypeHandle} :
    s.canHold t = true ↔ t ≠ .null ∧ t ≠ .void ∧ s.catalog.contains t = true := by
  simp [canHold, Catalog.canHold, and_assoc]

theorem catalog_canHold {t : TypeHandle} : s.catalog.canHold t = s.canHold t := rfl

/-! ## The order of growth -/

/-- A later state of the same store: what was stored is stored still, as it was. -/
structure Grows (s s' : Store ω π) : Prop where
  serial : s'.serial = s.serial
  decl? : ∀ {t d}, s.decl? t = some d → s'.decl? t = some d
  entry? : ∀ {k e}, s.entry? k = some e → s'.entry? k = some e
  unlocked : ∀ {k}, k ∈ s.unlocked → k ∈ s'.unlocked

namespace Grows

theorem refl (s : Store ω π) : s.Grows s := ⟨rfl, id, id, id⟩

theorem trans {s'' : Store ω π} (h : s.Grows s') (h' : s'.Grows s'') : s.Grows s'' :=
  ⟨h'.serial.trans h.serial, h'.decl? ∘ h.decl?, h'.entry? ∘ h.entry?,
    h'.unlocked ∘ h.unlocked⟩

variable (h : s.Grows s')
include h

theorem contains {t : TypeHandle} (ht : s.catalog.contains t = true) :
    s'.catalog.contains t = true := by
  obtain ⟨d, hd⟩ := contains_iff.mp ht
  exact contains_iff.mpr ⟨d, h.decl? hd⟩

theorem canHold {t : TypeHandle} (ht : s.canHold t = true) : s'.canHold t = true := by
  obtain ⟨hn, hv, hc⟩ := canHold_iff.mp ht
  exact canHold_iff.mpr ⟨hn, hv, h.contains hc⟩

theorem component? {t x : TypeHandle} (ht : s.catalog.component? t = some x) :
    s'.catalog.component? t = some x := by
  obtain ⟨d, hd, hs⟩ := component?_eq_some.mp ht
  exact component?_eq_some.mpr ⟨d, h.decl? hd, hs⟩

theorem ctor? {j : CtorHandle} {k : Ctor} (hk : s.ctor? j = some k) : s'.ctor? j = some k := by
  obtain ⟨e, he, rfl⟩ := Option.map_eq_some_iff.mp hk
  exact Option.map_eq_some_iff.mpr ⟨e, h.entry? he, rfl⟩

end Grows

/-! ## Adding a type -/

theorem decl?_push (s : Store ω π) (added : TypeDecl) (t : TypeHandle) :
    decl? { s with types := s.types.push added } t =
      if t = s.nextType then some added else s.decl? t := by
  by_cases ht : t = s.nextType
  · rw [if_pos ht, ht, decl?_push_nextType]
  rw [if_neg ht]
  unfold decl?
  split
  · rfl
  · next hlow =>
    have hne : t.index - TypeHandle.firstDeclared ≠ s.types.size := by
      intro h
      apply ht
      cases t
      simp only [nextType, TypeHandle.mk.injEq] at *
      omega
    rw [Array.getElem?_push, if_neg hne]

/-- Every stored type has a smaller handle than the one that is due. -/
theorem index_lt_nextType {t : TypeHandle} {d : TypeDecl} (h : s.decl? t = some d) :
    t.index < s.nextType.index := by
  unfold decl? at h
  split at h
  · next hlow => exact Nat.lt_of_lt_of_le hlow (Nat.le_add_right _ _)
  · next hlow =>
    obtain ⟨hi, -⟩ := Array.getElem?_eq_some_iff.mp h
    simp only [nextType]
    omega

/-- A name that is free is the name of the type that is added. -/
theorem lookup_push (s : Store ω π) (added : TypeDecl) (name : String) :
    lookup { s with types := s.types.push added } name =
      (s.lookup name).or (if added.name = name then some added.handle else none) := by
  have hdecls : decls { s with types := s.types.push added } = s.decls ++ [added] := by
    simp [decls, List.append_assoc]
  rw [lookup, lookup, hdecls, List.find?_append]
  cases s.decls.find? (·.name == name) with
  | some e => rfl
  | none => by_cases hname : added.name = name <;> simp [hname]

/-- A component without an array type is the component of the type that is added. -/
theorem array?_push (s : Store ω π) (added : TypeDecl) (x : TypeHandle) :
    array? { s with types := s.types.push added } x =
      (s.array? x).or (if added.component? = some x then some added.handle else none) := by
  simp only [array?, Array.find?_push]
  cases s.types.find? fun d => d.component? == some x with
  | some e => rfl
  | none => by_cases hx : added.component? = some x <;> simp [hx]

theorem Grows.pushType (s : Store ω π) (added : TypeDecl) :
    s.Grows { s with types := s.types.push added } :=
  ⟨rfl, s.decl?_push_of_decl? added, id, id⟩

/-! ## Array types -/

/-- What asking for an array type comes to: it is known already, or it is stored now, or
its component cannot be held. -/
theorem arrayOf_cases (s : Store ω π) (x : TypeHandle) :
    (∃ t, s.array? x = some t ∧ (arrayOf x).run s = (t, s)) ∨
    (s.array? x = none ∧ ∃ d, s.decl? x = some d ∧ s.canHold x = true ∧
      (arrayOf x).run s =
        (s.nextType, { s with types := s.types.push (s.arrayDecl x d) })) ∨
    (s.array? x = none ∧ s.canHold x = false ∧ (arrayOf x).run s = (.absent, s)) := by
  cases ha : s.array? x with
  | some t => exact .inl ⟨t, rfl, by simp [arrayOf, StateT.run, ha]⟩
  | none =>
    refine .inr ?_
    cases hd : s.decl? x with
    | none =>
      have hc : s.canHold x = false := by simp [canHold, Catalog.canHold, Catalog.contains, hd]
      exact .inr ⟨rfl, hc, by simp [arrayOf, StateT.run, ha, hd]⟩
    | some d =>
      cases hc : s.canHold x with
      | true => exact .inl ⟨rfl, d, rfl, rfl, by simp [arrayOf, StateT.run, ha, hd, hc]⟩
      | false => exact .inr ⟨rfl, rfl, by simp [arrayOf, StateT.run, ha, hd, hc]⟩

theorem Grows.arrayOf (s : Store ω π) (x : TypeHandle) :
    s.Grows ((Store.arrayOf x).run s).2 := by
  obtain ⟨_, -, h⟩ | ⟨-, d, -, -, h⟩ | ⟨-, -, h⟩ := s.arrayOf_cases x <;> rw [h]
  · exact .refl s
  · exact .pushType s _
  · exact .refl s

/-! ## Declaring -/

/-- The definitions that a store admits. -/
structure Admits (s : Store ω π) (d : Definition ω π) : Prop where
  superclass : ∀ u, d.superclass = some u →
    ∃ e, s.decl? u = some e ∧ e.shape = .classType ∧ e.modifiers.isFinal = false
  interfaces : ∀ u ∈ d.interfaces, ∃ e, s.decl? u = some e ∧ e.shape = .interface
  enclosing : ∀ u, d.enclosing = some u → s.catalog.contains u = true
  ctors : d.sort = .interface → d.ctors = []
  params : ∀ k ∈ d.ctors, ∀ p ∈ k.params, s.canHold p = true
  variadic : ∀ k ∈ d.ctors, k.modifiers.isVariadic = true →
    ∃ x, k.params.getLast?.bind s.catalog.component? = some x
  signatures : d.ctors.Pairwise fun j k => j.params ≠ k.params
  name : s.lookup d.name = none

theorem checkSuperclass_eq_ok {owner : String} {u : TypeHandle} :
    s.catalog.checkSuperclass owner u = .ok () ↔
      ∃ e, s.decl? u = some e ∧ e.shape = .classType ∧ e.modifiers.isFinal = false := by
  cases hd : s.decl? u with
  | none => simp [Catalog.checkSuperclass, hd]
  | some e => simp [Catalog.checkSuperclass, hd]

theorem checkInterface_eq_ok {owner : String} {u : TypeHandle} :
    s.catalog.checkInterface owner u = .ok () ↔ ∃ e, s.decl? u = some e ∧ e.shape = .interface := by
  cases hd : s.decl? u with
  | none => simp [Catalog.checkInterface, hd]
  | some e => simp [Catalog.checkInterface, hd]

theorem checkEnclosing_eq_ok {owner : String} {u : TypeHandle} :
    s.catalog.checkEnclosing owner u = .ok () ↔ s.catalog.contains u = true := by
  cases hc : s.catalog.contains u <;> simp [Catalog.checkEnclosing, hc]

theorem checkCtor_eq_ok {owner : String} {earlier : List (List TypeHandle)}
    {k : CtorDefinition ω π} :
    s.catalog.checkCtor owner earlier k = .ok () ↔
      (∀ p ∈ k.params, s.canHold p = true) ∧
      (k.modifiers.isVariadic = true →
        ∃ x, k.params.getLast?.bind s.catalog.component? = some x) ∧
      k.params ∉ earlier := by
  simp only [Catalog.checkCtor, catalog_canHold]
  cases hf : k.params.find? fun t => !s.canHold t with
  | some t =>
    have ht := List.find?_some hf
    have hm := List.mem_of_find?_eq_some hf
    simp only [Bool.not_eq_true'] at ht
    simp only [reduceCtorEq, false_iff, not_and]
    intro hall
    rw [hall t hm] at ht
    cases ht
  | none =>
    have hall : ∀ p ∈ k.params, s.canHold p = true := by
      simpa using List.find?_eq_none.mp hf
    cases hv : k.modifiers.isVariadic <;>
      cases hl : k.params.getLast?.bind s.catalog.component? <;>
      by_cases he : k.params ∈ earlier <;> simp [he] <;> exact hall

theorem checkCtors_eq_ok {owner : String} {earlier : List (List TypeHandle)}
    {ks : List (CtorDefinition ω π)} :
    s.catalog.checkCtors owner earlier ks = .ok () ↔
      (∀ k ∈ ks, (∀ p ∈ k.params, s.canHold p = true) ∧
        (k.modifiers.isVariadic = true →
          ∃ x, k.params.getLast?.bind s.catalog.component? = some x) ∧
        k.params ∉ earlier) ∧
      ks.Pairwise fun j k => j.params ≠ k.params := by
  induction ks generalizing earlier with
  | nil => simp [Catalog.checkCtors]
  | cons k ks ih =>
    rw [Catalog.checkCtors, bind_unit_eq_ok, checkCtor_eq_ok, ih, List.forall_mem_cons,
      List.pairwise_cons]
    simp only [List.mem_cons, not_or]
    constructor
    · rintro ⟨hk, hks, hp⟩
      exact ⟨⟨hk, fun j hj => ⟨(hks j hj).1, (hks j hj).2.1, (hks j hj).2.2.2⟩⟩,
        fun j hj => Ne.symm (hks j hj).2.2.1, hp⟩
    · rintro ⟨⟨hk, hks⟩, hne, hp⟩
      exact ⟨hk, fun j hj => ⟨(hks j hj).1, (hks j hj).2.1, Ne.symm (hne j hj),
        (hks j hj).2.2⟩, hp⟩

/-- A definition passes the checks exactly if the store admits it. -/
theorem check_eq_ok {d : Definition ω π} : s.check d = .ok () ↔ s.Admits d := by
  have hname : (if (s.lookup d.name).isSome = true then throw (.nameTaken d.name)
      else pure () : Except DeclareError Unit) = .ok () ↔ s.lookup d.name = none := by
    cases s.lookup d.name <;> simp [pure, Except.pure, throw, throwThe, MonadExceptOf.throw]
  rw [check, bind_unit_eq_ok, hname]
  unfold Catalog.check
  rw [bind_unit_eq_ok, bind_unit_eq_ok, bind_unit_eq_ok, optionForM_eq_ok, listForM_eq_ok,
    optionForM_eq_ok]
  simp only [checkSuperclass_eq_ok, checkInterface_eq_ok, checkEnclosing_eq_ok]
  by_cases hsort : d.sort = .interface ∧ (!d.ctors.isEmpty) = true
  · rw [if_pos hsort]
    constructor
    · rintro ⟨⟨-, -, -, h⟩, -⟩
      cases h
    · intro h
      simp [h.ctors hsort.1] at hsort
  · rw [if_neg hsort, checkCtors_eq_ok]
    have hctors : d.sort = .interface → d.ctors = [] := by simpa using hsort
    constructor
    · rintro ⟨⟨hsup, hint, henc, hks, hp⟩, hn⟩
      exact ⟨hsup, hint, henc, hctors, fun k hk => (hks k hk).1, fun k hk => (hks k hk).2.1,
        hp, hn⟩
    · intro h
      exact ⟨⟨h.superclass, h.interfaces, h.enclosing,
        fun k hk => ⟨h.params k hk, h.variadic k hk, List.not_mem_nil⟩, h.signatures⟩, h.name⟩

/-- The store with a definition added. -/
def declared (s : Store ω π) (d : Definition ω π) : Store ω π :=
  { s with types := s.types.push (s.declOf d), ctors := s.ctors ++ s.storedCtors d }

/-- What declaring comes to, where it succeeds. -/
theorem declare_eq_ok {d : Definition ω π} {t : TypeHandle} :
    s.declare d = .ok (t, s') ↔ s.Admits d ∧ t = s.nextType ∧ s' = s.declared d := by
  rw [declare, bind_unit_eq_ok, check_eq_ok]
  simp only [pure, Except.pure, Except.ok.injEq, Prod.mk.injEq, eq_comm, declared]

theorem decl?_declared (s : Store ω π) (d : Definition ω π) (t : TypeHandle) :
    (s.declared d).decl? t = if t = s.nextType then some (s.declOf d) else s.decl? t :=
  s.decl?_push (s.declOf d) t

theorem getElem?_appendList {α : Type} (xs : Array α) (l : List α) (i : Nat) :
    (xs ++ l)[i]? = if i < xs.size then xs[i]? else l[i - xs.size]? := by
  rw [← Array.getElem?_toList, Array.toList_appendList, List.getElem?_append]
  simp

/-- Every stored constructor has a smaller handle than the first one due. -/
theorem index_lt_nextCtor {k : CtorHandle} {e : StoredCtor ω π} (h : s.entry? k = some e) :
    k.index < (s.nextCtor 0).index := by
  unfold entry? at h
  split at h
  · next hp =>
    have hp : CtorHandle.firstDeclared ≤ k.index := of_decide_eq_true hp
    obtain ⟨hi, -⟩ := Array.getElem?_eq_some_iff.mp h
    simp only [nextCtor]
    omega
  · cases h

/-- The constructor that a store keeps under a handle for one that is defined. -/
def storedOf (s : Store ω π) (j : CtorHandle) (k : CtorDefinition ω π) : StoredCtor ω π :=
  k.storedAs j s.nextType

/-- A handle below the first one due names what it did; from there on, the constructors of
the definition in their order. -/
theorem entry?_declared (s : Store ω π) (d : Definition ω π) (j : CtorHandle) :
    entry? (s.declared d) j =
      if j.index < (s.nextCtor 0).index then s.entry? j
      else d.ctors[j.index - (s.nextCtor 0).index]?.map (s.storedOf j) := by
  by_cases hp : j.isPresent = true
  · have hpos : CtorHandle.firstDeclared ≤ j.index := of_decide_eq_true hp
    have hnext : (s.nextCtor 0).index = CtorHandle.firstDeclared + s.ctors.size := rfl
    unfold entry?
    simp only [if_pos hp, declared, getElem?_appendList]
    by_cases hj : j.index < (s.nextCtor 0).index
    · rw [if_pos hj, if_pos (by omega)]
    · rw [if_neg hj, if_neg (by omega), storedCtors, List.getElem?_mapIdx,
        show j.index - CtorHandle.firstDeclared - s.ctors.size =
          j.index - (s.nextCtor 0).index by omega]
      refine congrArg (Option.map · _) (funext fun k => ?_)
      have hj' : s.nextCtor (j.index - (s.nextCtor 0).index) = j := by
        cases j
        simp only [nextCtor, CtorHandle.mk.injEq] at hnext hj ⊢
        omega
      rw [hj', storedOf]
  · have hlow : j.index < (s.nextCtor 0).index := by
      have hpos : ¬CtorHandle.firstDeclared ≤ j.index := fun h => hp (decide_eq_true h)
      simp only [nextCtor]
      omega
    rw [if_pos hlow]
    unfold entry?
    simp [hp]

theorem Grows.declared (s : Store ω π) (d : Definition ω π) : s.Grows (s.declared d) where
  serial := rfl
  decl? := s.decl?_push_of_decl? _
  entry? {k e} h := by
    rw [entry?_declared, if_pos (index_lt_nextCtor h)]
    exact h
  unlocked := id

/-! ## Unlocking and instantiating -/

theorem isUnlocked_iff {j : CtorHandle} : s.isUnlocked j = true ↔ j ∈ s.unlocked :=
  List.contains_iff_mem

theorem isUnlocked_eq_false {j : CtorHandle} : s.isUnlocked j = false ↔ j ∉ s.unlocked := by
  rw [← isUnlocked_iff, Bool.not_eq_true]

theorem unlock_cases (s : Store ω π) (k : Ctor) :
    (s.owns k = false ∧ (unlock k).run s = (false, s)) ∨
    (s.owns k = true ∧ s.isUnlocked k.handle = true ∧ (unlock k).run s = (true, s)) ∨
    (s.owns k = true ∧ s.isUnlocked k.handle = false ∧ k.isSealed = true ∧
      (unlock k).run s = (false, s)) ∨
    (s.owns k = true ∧ s.isUnlocked k.handle = false ∧ k.isSealed = false ∧
      (unlock k).run s = (true, { s with unlocked := k.handle :: s.unlocked })) := by
  cases ho : s.owns k <;> cases hu : s.isUnlocked k.handle <;> cases hs : k.isSealed <;>
    simp [unlock, StateT.run, ho, hu, hs]

theorem Grows.unlock (s : Store ω π) (k : Ctor) : s.Grows ((Store.unlock k).run s).2 := by
  obtain ⟨-, h⟩ | ⟨-, -, h⟩ | ⟨-, -, -, h⟩ | ⟨-, -, -, h⟩ := s.unlock_cases k <;> rw [h]
  · exact .refl s
  · exact .refl s
  · exact .refl s
  · exact ⟨rfl, id, id, List.mem_cons_of_mem _⟩

/-- On the world of a store, a computation does what it does on that world alone. -/
theorem runFrom_onWorld {ε ε' α : Type} (s : Store ω π) (x : Failable ω ε α) :
    (liftM (onWorld (π := π) x.run) : Failable (Store ω π) ε' (Except ε α)).runFrom s =
      (.ok (x.runFrom s.world).1, { s with world := (x.runFrom s.world).2 }) := rfl

/-- What making an instance comes to: the body runs once, on the world that the store has. -/
theorem runFrom_instantiate (s : Store ω π) (k : Ctor) (args : List (Datum π)) :
    (instantiate k args).runFrom s =
      match s.bodyFor k with
      | .error e => (.error e, s)
      | .ok body =>
          match (body args).runFrom s.world with
          | (.error cause, world) =>
              (.error (.bodyFailed (s.catalog.nameOf k.owner) cause), { s with world })
          | (.ok payload, world) =>
              (.ok { type := k.owner, identity := ⟨s.serial, s.made⟩, payload },
                { s with made := s.made + 1, world }) := by
  have hget : (get : Failable (Store ω π) TargetFailure (Store ω π)).runFrom s = (.ok s, s) := rfl
  rw [instantiate, Failable.runFrom_bind, hget]
  cases hb : s.bodyFor k with
  | error e => simp [hb]
  | ok body =>
    simp only [hb, Failable.runFrom_bind, runFrom_onWorld]
    cases hr : (body args).runFrom s.world with
    | mk r world =>
      cases r with
      | error cause => rfl
      | ok payload => rfl

end Store

end BestFit
