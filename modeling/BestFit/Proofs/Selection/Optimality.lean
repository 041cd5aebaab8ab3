import BestFit.Proofs.Selection.Usability

/-!
# The choice of a constructor

Which constructor answers a request. `run_bestCtor?` gives the outcome of the search on a
store and what the search leaves behind; `Answers` says what the outcome is worth. Main
statement: `bestCtor?_optimal`, the search answers whenever a declared constructor fits and
may be used, and its answer is one that no other such constructor is more specific than.
-/
namespace BestFit

namespace Catalog

/-- A declared constructor of `t` that fits a request and may be used, with the parameter
list that it presents to the request. -/
structure Eligible (c : Catalog) (o : Opener) (policy : Policy) (t : TypeHandle)
    (request : List TypeHandle) (k : Candidate) : Prop where
  declared : k.ctor ∈ c.ctorsOf t
  fits : ∃ f, c.fit? policy.boxing k.ctor request = some f ∧
    k.formals = c.formals k.ctor f request.length
  usable : c.mayUse o policy k.ctor = true

/-- What an answer to a request is worth: there is none only if no constructor is eligible,
and one that there is, is eligible and unbeaten. -/
structure Answers (c : Catalog) (o : Opener) (policy : Policy) (t : TypeHandle)
    (request : List TypeHandle) (r : Option Ctor) : Prop where
  none_iff : r = none ↔ ¬∃ k, c.Eligible o policy t request k
  eligible : ∀ k, r = some k → ∃ formals, c.Eligible o policy t request ⟨k, formals⟩ ∧
    ∀ j, c.Eligible o policy t request j →
      c.isNarrower policy.boxing j.formals formals = false

variable {c : Catalog} {o : Opener} {policy : Policy} {t : TypeHandle}
  {request : List TypeHandle}

theorem Eligible.converts {k : Candidate} (h : c.Eligible o policy t request k) :
    c.convertsAll policy.boxing request k.formals = true := by
  obtain ⟨f, hf, hk⟩ := h.fits
  rw [hk]
  exact convertsAll_formals hf

theorem eligible_iff {k : Candidate} :
    c.Eligible o policy t request k ↔
      k ∈ (c.candidates policy.boxing t request).filter fun k => c.mayUse o policy k.ctor := by
  rw [List.mem_filter, mem_candidates]
  exact ⟨fun h => ⟨⟨h.declared, h.fits⟩, h.usable⟩, fun h => ⟨h.1.1, h.1.2, h.2⟩⟩

/-- The scan over the eligible candidates gives an answer. -/
theorem answers_mostSpecific? (hc : c.Lawful) :
    c.Answers o policy t request
      ((c.mostSpecific? policy.boxing ((c.candidates policy.boxing t request).filter fun k =>
        c.mayUse o policy k.ctor)).map Candidate.ctor) := by
  have hcomp : c.Competing policy.boxing request
      ((c.candidates policy.boxing t request).filter fun k => c.mayUse o policy k.ctor) :=
    fun k hk => (eligible_iff.mpr hk).converts
  refine ⟨?_, fun k hk => ?_⟩
  · rw [Option.map_eq_none_iff, mostSpecific?_eq_none hc hcomp, List.eq_nil_iff_forall_not_mem]
    simp only [eligible_iff, not_exists]
  · obtain ⟨b, hb, rfl⟩ := Option.map_eq_some_iff.mp hk
    obtain ⟨hmem, hunb⟩ := unbeaten_of_mostSpecific? hc hcomp hb
    exact ⟨b.formals, eligible_iff.mpr hmem, fun j hj => hunb j (eligible_iff.mp hj)⟩

/-- An exposed constructor whose parameters are the request is an answer: what the request
converts to is nowhere narrower than the request. -/
theorem answers_of_exact {k : Ctor} (hk : k ∈ c.ctorsOf t) (hparams : k.params = request)
    (hexposed : c.exposes k = true) (hself : c.convertsAll policy.boxing request request = true) :
    c.Answers o policy t request (some k) := by
  have hdirect : c.fit? policy.boxing k request = some .direct :=
    fit?_eq_some.mpr (.inl ⟨rfl, by rw [hparams, hself]⟩)
  have helig : c.Eligible o policy t request ⟨k, request⟩ :=
    ⟨hk, ⟨.direct, hdirect, hparams.symm⟩, by simp [mayUse, hexposed]⟩
  refine ⟨by simpa using ⟨_, helig⟩, ?_⟩
  rintro _ ⟨⟩
  refine ⟨request, helig, fun j hj => ?_⟩
  rw [← Bool.not_eq_true, isNarrower_iff, hj.converts]
  simp

/-- An eligible constructor more specific than all others is the only answer. -/
theorem Answers.eq_of_narrowest {r : Option Ctor} (h : c.Answers o policy t request r)
    {k : Candidate} (hk : c.Eligible o policy t request k)
    (hbest : ∀ j, c.Eligible o policy t request j → j.ctor ≠ k.ctor →
      c.isNarrower policy.boxing k.formals j.formals = true) : r = some k.ctor := by
  cases r with
  | none => exact absurd ⟨k, hk⟩ (h.none_iff.mp rfl)
  | some b =>
    obtain ⟨formals, helig, hunb⟩ := h.eligible b rfl
    by_contra hne
    have hbeaten := hbest ⟨b, formals⟩ helig fun heq => hne (congrArg some heq)
    rw [hunb k hk] at hbeaten
    cases hbeaten

end Catalog

namespace Store

open Catalog (Eligible Answers)

variable {ω π : Type} {s : Store ω π} {t : TypeHandle} {request : List TypeHandle}

theorem ne_absent_of_canHold (h : s.canHold t = true) : t ≠ .absent :=
  ne_absent_of_contains (canHold_iff.mp h).2.2

theorem convertsAll_self {boxing : Bool} {ts : List TypeHandle}
    (h : ∀ t ∈ ts, s.canHold t = true) : s.catalog.convertsAll boxing ts ts = true := by
  induction ts with
  | nil => rfl
  | cons t ts ih =>
    have ht := h t List.mem_cons_self
    rw [Catalog.convertsAll_cons, Bool.and_eq_true]
    exact ⟨Catalog.converts_same (ne_absent_of_canHold ht) (canHold_iff.mp ht).1,
      ih fun u hu => h u (List.mem_cons_of_mem _ hu)⟩

/-- As no two constructors of a type have the same parameters, the exact search is by the
parameters alone. -/
theorem WellFormed.exactCtor?_eq_some (hs : s.WellFormed) {k : Ctor} :
    s.catalog.exactCtor? t request = some k ↔
      k ∈ s.catalog.ctorsOf t ∧ k.params = request ∧ s.catalog.exposes k = true := by
  rw [Catalog.exactCtor?, Option.filter_eq_some_iff]
  constructor
  · rintro ⟨hfind, hexposed⟩
    have hparams := List.find?_some hfind
    exact ⟨List.mem_of_find?_eq_some hfind, beq_iff_eq.mp hparams, hexposed⟩
  · rintro ⟨hk, hparams, hexposed⟩
    refine ⟨?_, hexposed⟩
    cases hfind : (s.catalog.ctorsOf t).find? (·.params == request) with
    | none =>
      have hne := List.find?_eq_none.mp hfind k hk
      simp [hparams] at hne
    | some j =>
      have hj := List.find?_some hfind
      have hjparams : j.params = request := beq_iff_eq.mp hj
      rw [hs.ctor_eq_of_params (List.mem_of_find?_eq_some hfind) hk (hjparams.trans hparams.symm)]

theorem WellFormed.describes_candidate (hs : s.WellFormed) {boxing : Bool} {k : Candidate}
    (hk : k ∈ s.catalog.candidates boxing t request) : s.Describes k.ctor :=
  (hs.of_mem_ctorsOf (Catalog.mem_candidates.mp hk).1).1

/-- The outcome of the best search on a type that is there. Where the store itself decides on
unlocking, or nothing is unlocked, the store would run the answer. -/
theorem OwnReachable.run_bestCtor? (hs : s.OwnReachable) (o : Opener) (policy : Policy)
    (ht : s.catalog.contains t = true) (request : List TypeHandle) :
    ∃ r s', ((factoryWith o policy).bestCtor? t request).runFrom s = (.ok r, s') ∧
      s.Opens s' ∧ s.catalog.Answers o policy t request r ∧
      (o = .self ∨ o = .denyAll → ∀ k, r = some k → s'.Lets k) := by
  have hwf := hs.wellFormed
  have hpresent := ne_absent_of_contains ht
  cases hexact : s.catalog.exactCtor? t request with
  | some k =>
    -- an exact constructor is exposed, so it is an answer whatever unlocking it comes to
    obtain ⟨hk, hparams, hexposed⟩ := hwf.exactCtor?_eq_some.mp hexact
    have hdesc := (hwf.of_mem_ctorsOf hk).1
    have hself : s.catalog.convertsAll policy.boxing request request = true :=
      convertsAll_self fun p hp => hwf.canHold_params hdesc (hparams ▸ hp)
    have hopens : s.Opens (if policy.unlocking then ((o.unlock k).run s).2 else s) := by
      obtain ⟨s', hrun, hopens, -⟩ := run_opener o hdesc
      rw [hrun]
      cases policy.unlocking with
      | false => exact .refl s
      | true => exact hopens
    refine ⟨some k, _, (factoryWith o policy).runFrom_bestCtor?_of_exact hpresent ht request hexact,
      hopens, Catalog.answers_of_exact hk hparams hexposed hself, ?_⟩
    rintro - _ ⟨⟩
    exact hopens.lets (.inl hexposed)
  | none =>
    have hdesc : ∀ k ∈ s.catalog.candidates policy.boxing t request, s.Describes k.ctor :=
      fun k hk => hwf.describes_candidate hk
    obtain ⟨s', hrun, hopens, hlets⟩ := hs.run_usableAmong o policy hdesc
    have hbest := (factoryWith o policy).runFrom_bestCtor?_of_not_exact hpresent ht request hexact
    simp only [factoryWith_source, source_catalog, factoryWith_policy, hrun] at hbest
    refine ⟨_, s', hbest, hopens, Catalog.answers_mostSpecific? hwf.lawful, ?_⟩
    intro ho k hk
    obtain ⟨b, hb, rfl⟩ := Option.map_eq_some_iff.mp hk
    obtain ⟨hmem, hmay⟩ := List.mem_filter.mp (s.catalog.mem_of_mostSpecific? hb)
    rcases ho with rfl | rfl
    · exact hlets rfl b hmem hmay
    · exact hopens.lets (.inl (by simpa [Catalog.mayUse, Opener.denyAll, Opener.grants] using hmay))

/-- The search answers a request unless no declared constructor fits and may be used, and no
such constructor is more specific than the answer. One that is more specific than all others
is the answer, wherever it is declared. -/
theorem OwnReachable.bestCtor?_optimal (hs : s.OwnReachable) (policy : Policy)
    (ht : s.catalog.contains t = true) (request : List TypeHandle) :
    ∃ r s', ((factory policy).bestCtor? t request).runFrom s = (.ok r, s') ∧
      (r = none ↔ ¬∃ k, s.catalog.Eligible .self policy t request k) ∧
      (∀ k, r = some k → ∃ formals, s.catalog.Eligible .self policy t request ⟨k, formals⟩ ∧
        ∀ j, s.catalog.Eligible .self policy t request j →
          s.catalog.isNarrower policy.boxing j.formals formals = false) ∧
      (∀ k, s.catalog.Eligible .self policy t request k →
        (∀ j, s.catalog.Eligible .self policy t request j → j.ctor ≠ k.ctor →
          s.catalog.isNarrower policy.boxing k.formals j.formals = true) →
        r = some k.ctor) := by
  obtain ⟨r, s', hrun, -, hans, -⟩ := hs.run_bestCtor? .self policy ht request
  rw [← factory_eq] at hrun
  exact ⟨r, s', hrun, hans.none_iff, hans.eligible, fun _ hk hbest => hans.eq_of_narrowest hk hbest⟩

/-- A kennel for a dog, with unlocking: all three constructors fit. -/
theorem bestCtor?_optimal_kennel :
    kennels.OwnReachable ∧ kennels.catalog.contains ⟨103⟩ = true ∧
    ∃ r s', ((factory {}).bestCtor? ⟨103⟩ [⟨101⟩]).runFrom kennels = (.ok r, s') ∧
      (r = none ↔ ¬∃ k, kennels.catalog.Eligible .self {} ⟨103⟩ [⟨101⟩] k) ∧
      (∀ k, r = some k → ∃ formals, kennels.catalog.Eligible .self {} ⟨103⟩ [⟨101⟩] ⟨k, formals⟩ ∧
        ∀ j, kennels.catalog.Eligible .self {} ⟨103⟩ [⟨101⟩] j →
          kennels.catalog.isNarrower true j.formals formals = false) ∧
      (∀ k, kennels.catalog.Eligible .self {} ⟨103⟩ [⟨101⟩] k →
        (∀ j, kennels.catalog.Eligible .self {} ⟨103⟩ [⟨101⟩] j → j.ctor ≠ k.ctor →
          kennels.catalog.isNarrower true k.formals j.formals = true) →
        r = some k.ctor) := by
  have hkennel : kennels.catalog.contains ⟨103⟩ = true := by decide
  exact ⟨kennels_ownReachable, hkennel,
    kennels_ownReachable.bestCtor?_optimal {} hkennel [⟨101⟩]⟩

end Store

end BestFit
