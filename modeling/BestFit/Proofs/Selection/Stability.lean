import BestFit.Proofs.Selection.Optimality
import BestFit.Proofs.Store.Stability

/-!
# What a growing store keeps choosing

A search looks at the constructors of a type, at the types that these and the request name, and
at what is unlocked. All of that is settled as soon as the types are declared: growth adds types
and constructors that the search does not come to, and operations on true descriptions unlock
only what would have been granted anyway. Main statements: `Grows.exactCtor?_eq` and
`OwnSteps.bestCtor?_eq`.
-/
namespace BestFit.Store

variable {ω π : Type} {s s' : Store ω π} {boxing : Bool} {t : TypeHandle}
  {request as bs : List TypeHandle} {k : Ctor}

/-- All types of a list are declared. -/
def Knows (s : Store ω π) (ts : List TypeHandle) : Prop := ∀ t ∈ ts, s.catalog.contains t = true

theorem Knows.of_subset (h : s.Knows as) (hsub : bs ⊆ as) : s.Knows bs :=
  fun t ht => h t (hsub ht)

theorem knows_replicate {n : Nat} (h : s.catalog.contains t = true) :
    s.Knows (List.replicate n t) := by
  intro u hu
  rwa [List.eq_of_mem_replicate hu]

/-! ## What a constructor names -/

namespace WellFormed

variable (hs : s.WellFormed) (hk : s.Describes k)
include hs hk

theorem knows_params : s.Knows k.params :=
  fun _ hp => (canHold_iff.mp (hs.canHold_params hk hp)).2.2

theorem contains_lastParam {last : TypeHandle} (h : k.lastParam? = some last) :
    s.catalog.contains last = true :=
  hs.knows_params hk last (List.mem_of_getLast? h)

/-- The list that a fitting constructor presents to a request names declared types only. -/
theorem knows_formals {f : Fit} (h : s.catalog.fit? boxing k request = some f) (arity : Nat) :
    s.Knows (s.catalog.formals k f arity) := by
  rcases Catalog.fit?_eq_some.mp h with ⟨rfl, -⟩ | ⟨rfl, -, -, hspread⟩
  · exact hs.knows_params hk
  · obtain ⟨last, x, hlast, hx, -⟩ := Catalog.fitsSpread_iff.mp hspread
    have hlist := Typing.formals_spread (T := s.catalog.typing) hlast hx arity
    intro p hp
    rw [Catalog.formals, hlist] at hp
    rcases List.mem_append.mp hp with hp | hp
    · exact hs.knows_params hk p (List.dropLast_subset _ hp)
    · exact knows_replicate (hs.contains_component hx) p hp

end WellFormed

theorem WellFormed.knows_candidate (hs : s.WellFormed) {j : Candidate}
    (hj : j ∈ s.catalog.candidates boxing t request) : s.Knows j.formals := by
  obtain ⟨hdecl, f, hf, hformals⟩ := Catalog.mem_candidates.mp hj
  rw [hformals]
  exact hs.knows_formals (hs.of_mem_ctorsOf hdecl).1 hf _

/-! ## Growth -/

namespace Grows

variable (h : s.Grows s') (hs : s.WellFormed)
include h hs

theorem ctorsOf_eq (ht : s.catalog.contains t = true) :
    s'.catalog.ctorsOf t = s.catalog.ctorsOf t := by
  obtain ⟨d, hd⟩ := contains_iff.mp ht
  simp only [Catalog.ctorsOf, catalog_decl?, h.decl? hd, hd]
  refine List.filterMap_congr fun j hj => ?_
  obtain ⟨e, he, -⟩ := (hs.decls hd).ctors j hj
  have hj : s.ctor? j = some e.ctor := Option.map_eq_some_iff.mpr ⟨e, he, rfl⟩
  rw [catalog_ctor?, catalog_ctor?, hj, h.ctor? hj]

/-- The exact search is settled; it does not matter whether the request is known. -/
theorem exactCtor?_eq (ht : s.catalog.contains t = true) (request : List TypeHandle) :
    s'.catalog.exactCtor? t request = s.catalog.exactCtor? t request := by
  rw [Catalog.exactCtor?, Catalog.exactCtor?, h.ctorsOf_eq hs ht]
  cases hfind : (s.catalog.ctorsOf t).find? (·.params == request) with
  | none => rw [Option.filter_none, Option.filter_none]
  | some k =>
    obtain rfl := (hs.of_mem_ctorsOf (List.mem_of_find?_eq_some hfind)).2
    rw [Option.filter_some, Option.filter_some, h.exposes_eq hs ht]

theorem formals_eq (hk : s.Describes k) (f : Fit) (arity : Nat) :
    s'.catalog.formals k f arity = s.catalog.formals k f arity := by
  rw [Catalog.formals, Catalog.formals]
  cases f with
  | direct => rw [Typing.formals_direct, Typing.formals_direct]
  | spread =>
    cases hlast : k.lastParam? with
    | none => simp only [Typing.formals, hlast]
    | some last =>
      simp only [Typing.formals, Catalog.typing, hlast,
        h.component?_eq (hs.contains_lastParam hk hlast)]

variable (hs' : s'.WellFormed)
include hs'

theorem convertsAll_eq (ha : s.Knows as) (hb : s.Knows bs) :
    s'.catalog.convertsAll boxing as bs = s.catalog.convertsAll boxing as bs := by
  induction as generalizing bs with
  | nil =>
    cases bs with
    | nil => rw [Catalog.convertsAll_nil, Catalog.convertsAll_nil]
    | cons => rw [Catalog.convertsAll_nil_cons, Catalog.convertsAll_nil_cons]
  | cons a as ih =>
    cases bs with
    | nil => rw [Catalog.convertsAll_cons_nil, Catalog.convertsAll_cons_nil]
    | cons b bs =>
      obtain ⟨ha, has⟩ := List.forall_mem_cons.mp ha
      obtain ⟨hb, hbs⟩ := List.forall_mem_cons.mp hb
      rw [Catalog.convertsAll_cons, Catalog.convertsAll_cons, h.converts_eq hs hs' ha hb,
        ih has hbs]

theorem fitsSpread_eq (hk : s.Describes k) (hr : s.Knows request) :
    s'.catalog.fitsSpread boxing k request = s.catalog.fitsSpread boxing k request := by
  rw [Bool.eq_iff_iff, Catalog.fitsSpread_iff, Catalog.fitsSpread_iff]
  refine exists_congr fun last => exists_congr fun x => and_congr_right fun hlast => ?_
  rw [h.component?_eq (hs.contains_lastParam hk hlast)]
  refine and_congr_right fun hx => and_congr_right fun _ => ?_
  have hfixed : s.Knows k.fixedParams := (hs.knows_params hk).of_subset (List.dropLast_subset _)
  rw [h.convertsAll_eq hs hs' (hr.of_subset (List.take_subset ..)) hfixed]
  refine and_congr_right fun _ => forall₂_congr fun a ha => ?_
  rw [h.converts_eq hs hs' (hr a (List.mem_of_mem_drop ha)) (hs.contains_component hx)]

theorem fit?_eq (hk : s.Describes k) (hr : s.Knows request) :
    s'.catalog.fit? boxing k request = s.catalog.fit? boxing k request := by
  refine Option.ext fun f => ?_
  rw [Catalog.fit?_eq_some, Catalog.fit?_eq_some, h.convertsAll_eq hs hs' hr (hs.knows_params hk),
    h.fitsSpread_eq hs hs' hk hr]

theorem candidates_eq (ht : s.catalog.contains t = true) (hr : s.Knows request) :
    s'.catalog.candidates boxing t request = s.catalog.candidates boxing t request := by
  rw [Catalog.candidates, Catalog.candidates, h.ctorsOf_eq hs ht]
  refine List.filterMap_congr fun k hk => ?_
  have hdesc := (hs.of_mem_ctorsOf hk).1
  simp only [h.fit?_eq hs hs' hdesc hr, h.formals_eq hs hdesc]

/-! ## The scan -/

theorem isNarrower_eq (ha : s.Knows as) (hb : s.Knows bs) :
    s'.catalog.isNarrower boxing as bs = s.catalog.isNarrower boxing as bs := by
  rw [Bool.eq_iff_iff, Catalog.isNarrower_iff, Catalog.isNarrower_iff,
    h.convertsAll_eq hs hs' ha hb, h.convertsAll_eq hs hs' hb ha]

theorem rank_eq (ha : s.Knows as) (hb : s.Knows bs) :
    s'.catalog.rank boxing as bs = s.catalog.rank boxing as bs := by
  rw [Catalog.rank, Catalog.rank, h.isNarrower_eq hs hs' ha hb, h.isNarrower_eq hs hs' hb ha]

theorem better_eq {best : Option Candidate} {j : Candidate}
    (hbest : ∀ b, best = some b → s.Knows b.formals) (hj : s.Knows j.formals) :
    s'.catalog.better boxing best j = s.catalog.better boxing best j := by
  cases best with
  | none => rfl
  | some b =>
    have hb := hbest b rfl
    simp only [Catalog.better]
    rw [h.rank_eq hs hs' hj hb]

theorem foldl_better_eq {ks : List Candidate} {best : Option Candidate}
    (hbest : ∀ b, best = some b → s.Knows b.formals) (hks : ∀ j ∈ ks, s.Knows j.formals) :
    ks.foldl (s'.catalog.better boxing) best = ks.foldl (s.catalog.better boxing) best := by
  induction ks generalizing best with
  | nil => rw [List.foldl_nil, List.foldl_nil]
  | cons j ks ih =>
    obtain ⟨hj, hks⟩ := List.forall_mem_cons.mp hks
    rw [List.foldl_cons, List.foldl_cons, h.better_eq hs hs' hbest hj]
    refine ih (fun b hb => ?_) hks
    rcases s.catalog.better_eq boxing best j with heq | ⟨heq, -⟩
    · obtain rfl := Option.some.inj (heq.symm.trans hb)
      exact hj
    · exact hbest b (heq.symm.trans hb)

theorem mostSpecific?_eq {ks : List Candidate} (hks : ∀ j ∈ ks, s.Knows j.formals) :
    s'.catalog.mostSpecific? boxing ks = s.catalog.mostSpecific? boxing ks :=
  h.foldl_better_eq hs hs' (fun _ hb => nomatch hb) hks

end Grows

/-! ## The best search -/

/-- What the best search on a type that is there answers, whatever it does to the store. -/
theorem WellFormed.outcome_bestCtor? (hs : s.WellFormed) (o : Opener) (policy : Policy)
    (ht : s.catalog.contains t = true) (request : List TypeHandle) :
    (((factoryWith o policy).bestCtor? t request).runFrom s).1 =
      .ok ((s.catalog.exactCtor? t request).or
        ((s.catalog.mostSpecific? policy.boxing
          ((s.catalog.candidates policy.boxing t request).filter fun k =>
            s.catalog.mayUse (s.settled o) policy k.ctor)).map Candidate.ctor)) := by
  have hpresent := ne_absent_of_contains ht
  cases hexact : s.catalog.exactCtor? t request with
  | some k =>
    rw [(factoryWith o policy).runFrom_bestCtor?_of_exact hpresent ht request hexact]
    rfl
  | none =>
    have hdesc : ∀ k ∈ s.catalog.candidates policy.boxing t request, s.Describes k.ctor :=
      fun k hk => hs.describes_candidate hk
    obtain ⟨s', hrun, -⟩ := run_usableAmong o policy hdesc
    rw [(factoryWith o policy).runFrom_bestCtor?_of_not_exact hpresent ht request hexact]
    simp only [factoryWith_source, source_catalog, factoryWith_policy, hrun, Option.none_or]

/-- Operations on true descriptions leave the answers of the best search as they are. -/
theorem OwnSteps.bestCtor?_eq (h : s.OwnSteps s') (hs : s.WellFormed) (o : Opener)
    (policy : Policy) (ht : s.catalog.contains t = true) (hr : s.Knows request) :
    (((factoryWith o policy).bestCtor? t request).runFrom s').1 =
      (((factoryWith o policy).bestCtor? t request).runFrom s).1 := by
  have hgrows := h.grows
  have hs' := h.wellFormed hs
  have hmay : ∀ k ∈ s.catalog.candidates policy.boxing t request,
      s'.catalog.mayUse (s'.settled o) policy k.ctor =
        s.catalog.mayUse (s.settled o) policy k.ctor := by
    intro k hk
    obtain ⟨hdesc, howner⟩ := hs.of_mem_ctorsOf (Catalog.mem_candidates.mp hk).1
    rw [Catalog.mayUse, Catalog.mayUse, hgrows.exposes_eq hs (howner ▸ ht),
      h.grants_settled o hdesc]
  rw [hs'.outcome_bestCtor? o policy (hgrows.contains ht), hs.outcome_bestCtor? o policy ht,
    hgrows.exactCtor?_eq hs ht, hgrows.candidates_eq hs hs' ht hr, List.filter_congr hmay,
    hgrows.mostSpecific?_eq hs hs' fun j hj => hs.knows_candidate (List.mem_of_mem_filter hj)]

end BestFit.Store
