import BestFit.Proofs.Selection.Stability
import BestFit.Proofs.Shaping.Refusal

/-!
# More lenient policies

To switch boxing or unlocking on loses no match. Conversion holds on to its rules
(`Converts.lenient`), so a request fits whatever it fitted; and it fits in the same way, since
boxing helps no type to convert to an array type (`Converts.unboxed_of_component?`). Eligible
constructors stay eligible (`Grows.eligible_lenient`). Main statement: `OwnReachable.search_lenient`.
-/
namespace BestFit

/-- Whatever the first policy allows, the second allows too. -/
structure Policy.IsWithin (p q : Policy) : Prop where
  boxing : p.boxing = true → q.boxing = true
  unlocking : p.unlocking = true → q.unlocking = true

namespace Catalog

variable {c : Catalog} {a b x : TypeHandle} {request : List TypeHandle} {boxing boxing' : Bool}
  {k : Ctor} {o : Opener} {policy policy' : Policy}

/-! ## Conversion -/

theorem Converts.lenient (hswitch : boxing = true → boxing' = true) (h : c.Converts boxing a b) :
    c.Converts boxing' a b := by
  cases boxing with
  | false => exact h.boxed
  | true =>
    rw [hswitch rfl]
    exact h

theorem converts_lenient (hfin : c.FiniteNesting) (hswitch : boxing = true → boxing' = true)
    (h : c.converts boxing a b = true) : c.converts boxing' a b = true := by
  rw [converts_iff hfin] at h ⊢
  exact h.lenient hswitch

/-! ## Ways to fit -/

/-- Conversion to an array type never takes boxing. -/
theorem Converts.unboxed_of_component? (hc : c.Lawful) (hx : c.component? b = some x)
    (h : c.Converts boxing a b) : c.Converts false a b := by
  have hb := hc.ofHandle?_of_component? hx
  cases ha : Primitive.ofHandle? a with
  | none => exact h.unboxed ha hb
  | some p =>
    -- a boxed type is no array type, and refers to none
    obtain rfl := Primitive.eq_handle_of_ofHandle? ha
    obtain ⟨-, w, hw, hrefers⟩ := h.of_primitive_reference hc hb
    have hconv : c.Converts false w b := .refer (Primitive.wrapper_ne_absent hw) h.right_ne_absent
      (Primitive.wrapper_ne_null hw) (Primitive.ofHandle?_wrapper hw) hb hrefers
    rw [hconv.component?_eq_none hc (Primitive.wrapper_ne_null hw) (Primitive.ofHandle?_wrapper hw)
      hb (hc.component?_wrapper hw)] at hx
    cases hx

/-- Where a spread fit takes no boxing, a direct fit takes none either. -/
theorem direct_of_fitsSpread (hc : c.Lawful) (hspread : c.fitsSpread false k request = true)
    (h : c.convertsAll boxing request k.params = true) :
    c.convertsAll false request k.params = true := by
  obtain ⟨last, x, hl, hx, -, hfixed, -⟩ := fitsSpread_iff.mp hspread
  have hcount := Catalog.convertsAll_length h
  rw [← Ctor.fixedParams_append hl] at h hcount ⊢
  rcases List.eq_nil_or_concat' request with rfl | ⟨us, u, rfl⟩
  · simp at hcount
  have hus : us.length = k.fixedParams.length := by simpa using hcount
  rw [← hus, List.take_left] at hfixed
  -- the types before the last convert as they did, and the last converts to an array type
  rw [convertsAll_append hus, Bool.and_eq_true, convertsAll_cons, convertsAll_nil,
    Bool.and_true] at h ⊢
  have hlast := ((converts_iff hc.finite).mp h.2).unboxed_of_component? hc hx
  exact ⟨hfixed, (converts_iff hc.finite).mpr hlast⟩

/-- What fits without boxing fits in the same way with it. -/
theorem fit?_boxed (hc : c.Lawful) {f : Fit} (h : c.fit? false k request = some f) :
    c.fit? true k request = some f := by
  have hconv : ∀ a b, c.converts false a b = true → c.converts true a b = true :=
    fun _ _ => converts_lenient hc.finite fun _ => rfl
  rw [fit?_eq_some] at h ⊢
  rcases h with ⟨hf, hdirect⟩ | ⟨hf, hno, hv, hspread⟩
  · exact .inl ⟨hf, convertsAll_imp hconv hdirect⟩
  · refine .inr ⟨hf, ?_, hv, fitsSpread_imp hconv (fun _ _ hx => hx) hspread⟩
    rw [← Bool.not_eq_true] at hno ⊢
    exact fun h => hno (direct_of_fitsSpread hc hspread h)

/-! ## Eligibility -/

theorem mayUse_lenient (h : policy.IsWithin policy') (hk : c.mayUse o policy k = true) :
    c.mayUse o policy' k = true := by
  rw [mayUse, Bool.or_eq_true, Bool.and_eq_true] at hk ⊢
  exact hk.imp_right fun hopen => ⟨h.unlocking hopen.1, hopen.2⟩

end Catalog

namespace Store

variable {ω π : Type} {s s' : Store ω π} {o : Opener} {policy policy' : Policy} {t : TypeHandle}
  {request : List TypeHandle} {j : Candidate}

/-- What is eligible stays eligible, up to the list that it presents. -/
theorem Grows.eligible_lenient (h : s.Grows s') (hs : s.WellFormed) (hs' : s'.WellFormed)
    (hpolicy : policy.IsWithin policy') (ht : s.catalog.contains t = true)
    (hj : s.catalog.Eligible o policy t request j) :
    ∃ formals, s'.catalog.Eligible o policy' t request ⟨j.ctor, formals⟩ := by
  obtain ⟨f, hf, -⟩ := hj.fits
  have hconv : ∀ a b, s.catalog.converts policy.boxing a b = true →
      s'.catalog.converts policy'.boxing a b = true := fun _ _ hab =>
    Catalog.converts_lenient hs'.lawful.finite hpolicy.boxing (h.converts hs hs' hab)
  obtain ⟨f', hf'⟩ := Catalog.exists_fit?_iff.mpr
    ((Catalog.fits_of_fit? hf).imp hconv fun _ _ => h.component?)
  have howner := (hs.of_mem_ctorsOf hj.declared).2
  have hmay : s'.catalog.mayUse o policy j.ctor = true := by
    rw [Catalog.mayUse, h.exposes_eq hs (howner ▸ ht)]
    exact hj.usable
  refine ⟨s'.catalog.formals j.ctor f' request.length, ?_, ⟨f', hf', rfl⟩,
    Catalog.mayUse_lenient hpolicy hmay⟩
  rw [h.ctorsOf_eq hs ht]
  exact hj.declared

/-- To switch boxing on keeps every conversion and every fit, the fit in the same way. Where a
search found a constructor, a search under a more lenient policy finds one, then or later. -/
theorem OwnReachable.search_lenient (hs : s.OwnReachable) :
    (∀ a b, s.catalog.converts false a b = true → s.catalog.converts true a b = true) ∧
    (∀ k request f, s.catalog.fit? false k request = some f →
      s.catalog.fit? true k request = some f) ∧
    ∀ (o : Opener) (policy policy' : Policy), policy.IsWithin policy' →
      ∀ t request k s₁,
        ((factoryWith o policy).bestCtor? t request).runFrom s = (.ok (some k), s₁) →
        ∀ s₂, s.OwnSteps s₂ → ∃ k' s₃,
          ((factoryWith o policy').bestCtor? t request).runFrom s₂ = (.ok (some k'), s₃) := by
  have hwf := hs.wellFormed
  refine ⟨?_, ?_, ?_⟩
  · intro a b
    exact Catalog.converts_lenient hwf.lawful.finite fun _ => rfl
  · intro k request f
    exact Catalog.fit?_boxed hwf.lawful
  · intro o policy policy' hpolicy t request k s₁ hfound s₂ hlater
    obtain ⟨ht, -⟩ := (factoryWith o policy).of_bestCtor? hfound
    have hgrows := hlater.grows
    obtain ⟨r, _, hrun, -, hanswers, -⟩ := hs.run_bestCtor? o policy ht request
    obtain ⟨r', s₃, hrun', -, hanswers', -⟩ :=
      (hlater.ownReachable hs).run_bestCtor? o policy' (hgrows.contains ht) request
    rw [hfound] at hrun
    obtain ⟨formals, heligible, -⟩ := hanswers.eligible k (by cases hrun; rfl)
    obtain ⟨formals', heligible'⟩ :=
      hgrows.eligible_lenient hwf (hlater.wellFormed hwf) hpolicy ht heligible
    cases hr' : r' with
    | none => exact absurd ⟨_, heligible'⟩ (hanswers'.none_iff.mp hr')
    | some k' =>
      rw [hr'] at hrun'
      exact ⟨k', s₃, hrun'⟩

/-- The constructor of a kennel for one animal. -/
def kennelOfAnimal : Ctor :=
  { handle := ⟨2⟩, owner := ⟨103⟩, params := [⟨100⟩], modifiers := { isPublic := true } }

/-- A kennel for a dog is found without boxing and unlocking, so it is found with both; and two
dogs make a spread fit either way. -/
theorem search_lenient_kennel :
    let strict : Policy := { boxing := false, unlocking := false }
    kennels.OwnReachable ∧ strict.IsWithin {} ∧ kennels.OwnSteps kennels ∧
    (∃ k s₁, ((factoryWith .self strict).bestCtor? ⟨103⟩ [⟨101⟩]).runFrom kennels =
      (.ok (some k), s₁)) ∧
    (∃ k s₁, ((factoryWith .self {}).bestCtor? ⟨103⟩ [⟨101⟩]).runFrom kennels =
      (.ok (some k), s₁)) ∧
    kennels.catalog.fit? false kennelOfAny [⟨101⟩, ⟨101⟩] = some .spread ∧
    kennels.catalog.fit? true kennelOfAny [⟨101⟩, ⟨101⟩] = some .spread := by
  intro strict
  obtain ⟨-, hfit, hsearch⟩ := kennels_ownReachable.search_lenient
  have hwithin : strict.IsWithin {} := ⟨fun _ => rfl, fun _ => rfl⟩
  have hspread : kennels.catalog.fit? false kennelOfAny [⟨101⟩, ⟨101⟩] = some .spread := by decide
  have hkennel : kennels.catalog.contains ⟨103⟩ = true := by decide
  have hanswer := kennels_ownReachable.wellFormed.outcome_bestCtor? .self strict hkennel [⟨101⟩]
  obtain ⟨r, s₁, hrun, -⟩ := kennels_ownReachable.run_bestCtor? .self strict hkennel [⟨101⟩]
  rw [hrun] at hanswer
  obtain rfl : r = some kennelOfAnimal := (Except.ok.inj hanswer).trans (by decide)
  exact ⟨kennels_ownReachable, hwithin, .refl kennels, ⟨_, _, hrun⟩,
    hsearch .self strict {} hwithin ⟨103⟩ [⟨101⟩] _ _ hrun kennels (.refl kennels), hspread,
    hfit kennelOfAny _ _ hspread⟩

end Store

end BestFit
