import BestFit.Proofs.Access.Descriptions
import BestFit.Proofs.Access.Workspaces

/-!
# What a search unlocks

A search unlocks on its way, before it compares: the constructor that it answers with is one of
several that it may leave unlocked. `Footprint` says which ones they are, and that a construction
leaves the same ones, however it ends. Main statement: `Reachable.footprint`.
-/
namespace BestFit

namespace Factory

variable {σ π : Type} (F : Factory σ π)

/-- Without leave to unlock, trying candidates does nothing. -/
theorem run_usableAmong_of_not_unlocking (hoff : F.policy.unlocking = false) (c : Catalog)
    (ks : List Candidate) (s : σ) : ((F.usableAmong c ks).run s).2 = s := by
  induction ks with
  | nil => rfl
  | cons k ks ih =>
    have hfirst : ((F.usable c k.ctor).run s).2 = s := by
      unfold usable
      rw [hoff]
      split <;> rfl
    rw [run_usableAmong_cons]
    simp only [hfirst, ih]

end Factory

namespace Store

variable {ω π : Type} {s s₁ s' : Store ω π} {policy : Policy} {t : TypeHandle}
  {request : List TypeHandle} {k : Ctor}

/-! ## What is unlocked in between -/

/-- The second store has unlocked what the first has, the constructors with the property, and no
others. -/
def UnlocksJust (s s' : Store ω π) (P : Ctor → Prop) : Prop :=
  ∀ j, s'.isUnlocked j = true ↔ s.isUnlocked j = true ∨ ∃ k, P k ∧ k.handle = j

namespace UnlocksJust

variable {P Q : Ctor → Prop}

theorem of_none (s : Store ω π) (hP : ∀ k, ¬P k) : s.UnlocksJust s P := fun j => by
  simp [hP]

theorem congr (h : s.UnlocksJust s' P) (hPQ : ∀ k, P k ↔ Q k) : s.UnlocksJust s' Q := fun j => by
  rw [h j]
  simp only [hPQ]

theorem trans (h : s.UnlocksJust s₁ P) (h' : s₁.UnlocksJust s' Q) :
    s.UnlocksJust s' fun k => P k ∨ Q k := by
  intro j
  rw [h' j, h j, or_assoc]
  simp only [or_and_right, exists_or]

/-- What comes after the first store is settled by the property. -/
theorem isUnlocked_eq (h : s.UnlocksJust s₁ P) (h' : s.UnlocksJust s' P) (j : CtorHandle) :
    s'.isUnlocked j = s₁.isUnlocked j := by
  rw [Bool.eq_iff_iff, h j, h' j]

end UnlocksJust

/-- A true description has its constructor unlocked, unless that is sealed. -/
theorem unlocksJust_unlock (hk : s.Describes k) :
    s.UnlocksJust ((Store.unlock k).run s).2 fun j => j = k ∧ k.isSealed = false := by
  intro j
  rw [isUnlocked_unlock, owns_of_describes hk]
  constructor
  · rintro (hj | ⟨rfl, -, hsealed⟩)
    · exact .inl hj
    · exact .inr ⟨k, ⟨rfl, hsealed⟩, rfl⟩
  · rintro (hj | ⟨_, ⟨rfl, hsealed⟩, rfl⟩)
    · exact .inl hj
    · exact .inr ⟨rfl, rfl, hsealed⟩

section Unlocking

variable (hon : policy.unlocking = true) (c : Catalog)
include hon

/-- A constructor that is exposed is not unlocked in order to be used. -/
theorem unlocksJust_usable (hk : s.Describes k) :
    s.UnlocksJust (((factory policy).usable c k).run s).2 fun j =>
      j = k ∧ c.exposes k = false ∧ k.isSealed = false := by
  have hpolicy : (factory policy : Factory (Store ω π) π).policy.unlocking = true := hon
  unfold Factory.usable
  cases he : c.exposes k with
  | true => exact .of_none s (by simp)
  | false =>
    rw [if_neg Bool.false_ne_true, if_pos hpolicy]
    exact (unlocksJust_unlock hk).congr (by simp)

/-- Every candidate is tried, whatever came of those before it. -/
theorem unlocksJust_usableAmong {ks : List Candidate} (hks : ∀ k ∈ ks, s.Describes k.ctor) :
    s.UnlocksJust (((factory policy).usableAmong c ks).run s).2 fun k =>
      k ∈ ks.map Candidate.ctor ∧ c.exposes k = false ∧ k.isSealed = false := by
  induction ks generalizing s with
  | nil => exact .of_none s (by simp)
  | cons k ks ih =>
    rw [Factory.run_usableAmong_cons]
    have hfirst := unlocksJust_usable hon c (hks k List.mem_cons_self)
    -- the descriptions stay true after the first attempt
    have hgrows := (steps_usable .self policy c (hks k List.mem_cons_self)).grows
    have hrest := ih fun j hj => hgrows.ctor? (hks j (List.mem_cons_of_mem _ hj))
    refine (hfirst.trans hrest).congr fun j => ?_
    rw [List.map_cons, List.mem_cons, or_and_right]
    refine or_congr_left ⟨?_, ?_⟩
    · rintro ⟨rfl, h⟩
      exact ⟨rfl, h⟩
    · rintro ⟨rfl, h⟩
      exact ⟨rfl, h⟩

end Unlocking

/-! ## Constructions -/

/-- The same constructors are unlocked. -/
def SameUnlocked (s s' : Store ω π) : Prop := s'.unlocked = s.unlocked

instance : Std.Refl (SameUnlocked : Store ω π → Store ω π → Prop) := ⟨fun _ => rfl⟩

instance : IsTrans (Store ω π) SameUnlocked := ⟨fun _ _ _ h h' => h'.trans h⟩

theorem sameUnlocked_arrayOf (x : TypeHandle) (s : Store ω π) :
    s.SameUnlocked ((source.arrayOf x).run s).2 :=
  s.unlocked_apply_of_not_unlocks (show ¬(Operation.arrayOf x).Unlocks from id)

theorem sameUnlocked_instantiate (k : Ctor) (args : List (Datum π)) :
    Failable.Keeps SameUnlocked
      (instantiate k args : Failable (Store ω π) TargetFailure (Instance π)) := fun s =>
  s.unlocked_apply_of_not_unlocks (show ¬(Operation.instantiate k args).Unlocks from id)

/-- Once the search is over, a construction leaves what is unlocked as it is, wherever it fails. -/
theorem unlocked_makeAs (s : Store ω π) (policy : Policy) (t : TypeHandle) (args : List (Datum π))
    (request : List TypeHandle) :
    (((factory policy).makeAs t args request).runFrom s).2.unlocked =
      (((factory policy).bestCtor? t request).runFrom s).2.unlocked := by
  let F : Factory (Store ω π) π := factory policy
  have hshape : ∀ k, Failable.Keeps SameUnlocked (F.source.shape args k) := fun k =>
    (F.source.keeps_gather sameUnlocked_arrayOf k args).bind fun g =>
      F.source.keeps_conform sameUnlocked_arrayOf k g
  have hrest : ∀ r, Failable.Keeps SameUnlocked (do
      let k ← F.found t request r
      let l ← F.shaped t (F.source.shape args k)
      F.run ⟨k, l⟩) := fun r =>
    (F.keeps_found t request r).bind fun k =>
      (F.keeps_shaped t (hshape k)).bind fun l => F.keeps_run sameUnlocked_instantiate ⟨k, l⟩
  rw [Factory.makeAs_eq, Factory.makeBy, Failable.runFrom_bind]
  generalize ((factory policy).bestCtor? t request).runFrom s = searched
  obtain ⟨r | r, s₁⟩ := searched
  · rfl
  · exact hrest r s₁

/-! ## Searches -/

/-- What a search in `t` unlocks, and a construction. A handle without a type, such as the absent
one, is not contained. -/
structure Footprint (s : Store ω π) (policy : Policy) (t : TypeHandle)
    (request : List TypeHandle) : Prop where
  /-- The exact search does nothing to the store. -/
  exactCtor : (((factory policy).exactCtor? t request).runFrom s).2 = s
  /-- Neither does the best search without leave to unlock, or without a type to search. -/
  idle : policy.unlocking = false ∨ s.catalog.contains t = false →
    (((factory policy).bestCtor? t request).runFrom s).2 = s
  /-- An exposed constructor with just the requested parameters is unlocked alone. -/
  alone : policy.unlocking = true → ∀ k ∈ s.catalog.ctorsOf t, k.params = request →
    s.catalog.exposes k = true →
      s.UnlocksJust (((factory policy).bestCtor? t request).runFrom s).2 fun j =>
        j = k ∧ k.isSealed = false
  /-- Where there is none, every constructor that fits and is not exposed is unlocked, the ones
  that are not chosen included. -/
  competing : policy.unlocking = true →
    (∀ k ∈ s.catalog.ctorsOf t, k.params = request → s.catalog.exposes k = false) →
      s.UnlocksJust (((factory policy).bestCtor? t request).runFrom s).2 fun k =>
        k ∈ s.catalog.ctorsOf t ∧ (s.catalog.fit? policy.boxing k request).isSome = true ∧
          s.catalog.exposes k = false ∧ k.isSealed = false
  /-- It does not matter in which order the candidates are tried. -/
  anyOrder : ∀ ks, ks.Perm (s.catalog.candidates policy.boxing t request) → ∀ j,
    (((factory policy).usableAmong s.catalog ks).run s).2.isUnlocked j =
      (((factory policy).usableAmong s.catalog
        (s.catalog.candidates policy.boxing t request)).run s).2.isUnlocked j
  /-- A construction leaves unlocked what its search does, however it ends. -/
  makeAs : ∀ args, (((factory policy).makeAs t args request).runFrom s).2.unlocked =
    (((factory policy).bestCtor? t request).runFrom s).2.unlocked

/-- The constructors that compete are those that fit. -/
theorem mem_map_candidates {c : Catalog} {boxing : Bool} :
    k ∈ (c.candidates boxing t request).map Candidate.ctor ↔
      k ∈ c.ctorsOf t ∧ (c.fit? boxing k request).isSome = true := by
  simp only [List.mem_map, Catalog.mem_candidates, Option.isSome_iff_exists]
  constructor
  · rintro ⟨b, ⟨hk, f, hf, -⟩, rfl⟩
    exact ⟨hk, f, hf⟩
  · rintro ⟨hk, f, hf⟩
    exact ⟨⟨k, c.formals k f request.length⟩, ⟨hk, f, hf, rfl⟩, rfl⟩

theorem contains_of_mem_ctorsOf (hk : k ∈ s.catalog.ctorsOf t) : s.catalog.contains t = true := by
  obtain ⟨d, hd, -⟩ := mem_ctorsOf.mp hk
  exact contains_iff.mpr ⟨d, hd⟩

/-- What the best search does to the store comes down to an attempt on the exact constructor, or
else to attempts on all candidates. -/
theorem snd_bestCtor? (s : Store ω π) (policy : Policy) (ht : s.catalog.contains t = true)
    (request : List TypeHandle) :
    (((factory policy).bestCtor? t request).runFrom s).2 =
      match s.catalog.exactCtor? t request with
      | some k => if policy.unlocking then ((Store.unlock k).run s).2 else s
      | none => (((factory policy).usableAmong s.catalog
          (s.catalog.candidates policy.boxing t request)).run s).2 := by
  have hpresent := ne_absent_of_contains ht
  cases hexact : s.catalog.exactCtor? t request with
  | some k => rw [(factory policy).runFrom_bestCtor?_of_exact hpresent ht request hexact]; rfl
  | none => rw [(factory policy).runFrom_bestCtor?_of_not_exact hpresent ht request hexact]; rfl

/-- A handle without a type is refused. -/
theorem snd_bestCtor?_of_not_contains (s : Store ω π) (policy : Policy)
    (ht : s.catalog.contains t = false) (request : List TypeHandle) :
    (((factory policy).bestCtor? t request).runFrom s).2 = s := by
  have hsearch := (factory policy).bestSearch t request s
  generalize ((factory policy).bestCtor? t request).runFrom s = r at hsearch
  cases hsearch with
  | noType | unknownType => rfl
  | exact _ hc | among _ hc =>
    cases ht.symm.trans hc

theorem snd_bestCtor?_of_not_unlocking (s : Store ω π) (hoff : policy.unlocking = false)
    (t : TypeHandle) (request : List TypeHandle) :
    (((factory policy).bestCtor? t request).runFrom s).2 = s := by
  cases ht : s.catalog.contains t with
  | false => exact s.snd_bestCtor?_of_not_contains policy ht request
  | true =>
    rw [s.snd_bestCtor? policy ht]
    cases s.catalog.exactCtor? t request with
    | some k => simp only [hoff, Bool.false_eq_true, if_false]
    | none => exact (factory policy).run_usableAmong_of_not_unlocking hoff _ _ s

namespace WellFormed

variable (hs : s.WellFormed)
include hs

theorem unlocksJust_of_exact (hon : policy.unlocking = true) (hk : k ∈ s.catalog.ctorsOf t)
    (hparams : k.params = request) (hexposed : s.catalog.exposes k = true) :
    s.UnlocksJust (((factory policy).bestCtor? t request).runFrom s).2 fun j =>
      j = k ∧ k.isSealed = false := by
  have hexact := hs.exactCtor?_eq_some.mpr ⟨hk, hparams, hexposed⟩
  rw [s.snd_bestCtor? policy (contains_of_mem_ctorsOf hk), hexact]
  simp only [hon, if_true]
  exact unlocksJust_unlock (hs.of_mem_ctorsOf hk).1

theorem unlocksJust_candidates (hon : policy.unlocking = true) {ks : List Candidate}
    (hks : ks.Perm (s.catalog.candidates policy.boxing t request)) :
    s.UnlocksJust (((factory policy).usableAmong s.catalog ks).run s).2 fun k =>
      k ∈ s.catalog.ctorsOf t ∧ (s.catalog.fit? policy.boxing k request).isSome = true ∧
        s.catalog.exposes k = false ∧ k.isSealed = false := by
  have hdesc : ∀ k ∈ ks, s.Describes k.ctor := fun k hk =>
    hs.describes_candidate (hks.mem_iff.mp hk)
  refine (unlocksJust_usableAmong hon s.catalog hdesc).congr fun k => ?_
  rw [(hks.map Candidate.ctor).mem_iff, mem_map_candidates, and_assoc]

theorem unlocksJust_of_not_exact (hon : policy.unlocking = true)
    (hnone : ∀ k ∈ s.catalog.ctorsOf t, k.params = request → s.catalog.exposes k = false) :
    s.UnlocksJust (((factory policy).bestCtor? t request).runFrom s).2 fun k =>
      k ∈ s.catalog.ctorsOf t ∧ (s.catalog.fit? policy.boxing k request).isSome = true ∧
        s.catalog.exposes k = false ∧ k.isSealed = false := by
  cases ht : s.catalog.contains t with
  | false =>
    rw [s.snd_bestCtor?_of_not_contains policy ht]
    refine .of_none s ?_
    rintro k ⟨hk, -⟩
    rw [contains_of_mem_ctorsOf hk] at ht
    cases ht
  | true =>
    have hexact : s.catalog.exactCtor? t request = none := by
      refine Option.eq_none_iff_forall_ne_some.mpr fun k hk => ?_
      obtain ⟨hmem, hparams, hexposed⟩ := hs.exactCtor?_eq_some.mp hk
      rw [hnone k hmem hparams] at hexposed
      cases hexposed
    rw [s.snd_bestCtor? policy ht, hexact]
    exact hs.unlocksJust_candidates hon (.refl _)

theorem isUnlocked_of_perm (policy : Policy) {ks : List Candidate}
    (hks : ks.Perm (s.catalog.candidates policy.boxing t request)) (j : CtorHandle) :
    (((factory policy).usableAmong s.catalog ks).run s).2.isUnlocked j =
      (((factory policy).usableAmong s.catalog
        (s.catalog.candidates policy.boxing t request)).run s).2.isUnlocked j := by
  cases hon : policy.unlocking with
  | false =>
    rw [(factory policy).run_usableAmong_of_not_unlocking hon,
      (factory policy).run_usableAmong_of_not_unlocking hon]
  | true =>
    have hinOrder := hs.unlocksJust_candidates hon (List.Perm.refl
      (s.catalog.candidates policy.boxing t request))
    exact hinOrder.isUnlocked_eq (hs.unlocksJust_candidates hon hks) j

end WellFormed

/-- What searches and constructions unlock can be told from the declarations beforehand. -/
theorem Reachable.footprint (hs : s.Reachable) (policy : Policy) (t : TypeHandle)
    (request : List TypeHandle) : s.Footprint policy t request where
  exactCtor := by
    have hsame : Failable.Keeps Eq ((factory policy : Factory (Store ω π) π).exactCtor? t request) :=
      (factory policy).keeps_exactCtor? t request
    exact (hsame s).symm
  idle hidle := by
    rcases hidle with hoff | ht
    · exact s.snd_bestCtor?_of_not_unlocking hoff t request
    · exact s.snd_bestCtor?_of_not_contains policy ht request
  alone hon k hk hparams hexposed := hs.wellFormed.unlocksJust_of_exact hon hk hparams hexposed
  competing hon hnone := hs.wellFormed.unlocksJust_of_not_exact hon hnone
  anyOrder ks hks j := hs.wellFormed.isUnlocked_of_perm policy hks j
  makeAs args := s.unlocked_makeAs policy t args request

/-- A search for the kennel of one dog: the constructor that is not public is unlocked, and no
other. -/
theorem footprint_kennel :
    kennels.Reachable ∧ kennels.Footprint {} ⟨103⟩ [⟨101⟩] ∧
    ∀ j, (((factory {}).bestCtor? ⟨103⟩ [⟨101⟩]).runFrom kennels).2.isUnlocked j = true ↔
      j = ⟨1⟩ := by
  have hreach := kennels_ownReachable.reachable
  have hfoot := hreach.footprint {} ⟨103⟩ [⟨101⟩]
  refine ⟨hreach, hfoot, fun j => ?_⟩
  have hlocked : kennels.isUnlocked j = false := rfl
  have hhidden : ∀ k ∈ kennels.catalog.ctorsOf ⟨103⟩,
      kennels.catalog.exposes k = false ↔ k.handle = ⟨1⟩ := by decide
  have hone : ∃ k ∈ kennels.catalog.ctorsOf ⟨103⟩,
      (kennels.catalog.fit? true k [⟨101⟩]).isSome = true ∧ k.isSealed = false ∧
        k.handle = ⟨1⟩ := by decide
  rw [hfoot.competing rfl (by decide), hlocked]
  constructor
  · rintro (h | ⟨k, ⟨hk, -, hexposed, -⟩, rfl⟩)
    · cases h
    · exact (hhidden k hk).mp hexposed
  · rintro rfl
    obtain ⟨k, hk, hfits, hsealed, hhandle⟩ := hone
    exact .inr ⟨k, ⟨hk, hfits, (hhidden k hk).mpr hhandle, hsealed⟩, hhandle⟩

end Store

end BestFit
