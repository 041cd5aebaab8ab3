import BestFit.Proofs.Selection.Optimality

/-!
# Precedence among candidates

What the order of declaration decides. The scan compares each candidate with the best so far
and with nothing else, so a candidate that is not comparable with the answer can be lost on the
way: it was no better than an earlier one, and the answer was. Ties are never lost so. Main
statement: `Reachable.bestCtor?_precedence`, what became of the candidates declared before the
answer. `not_firstServed_walk` is a search that passes over one which nothing beats.
-/
namespace BestFit

/-- What comes before in a list without repetition does not come after. -/
theorem not_sublist_swap {α : Type} {l : List α} (hl : l.Nodup) {a b : α}
    (h : [a, b].Sublist l) : ¬[b, a].Sublist l := by
  induction l with
  | nil => cases h
  | cons x l ih =>
    obtain ⟨hx, hl⟩ := List.nodup_cons.mp hl
    intro h'
    cases h with
    | cons _ h =>
      cases h' with
      | cons _ h' => exact ih hl h h'
      | cons_cons _ _ => exact hx (h.subset (by simp))
    | cons_cons _ h =>
      cases h' with
      | cons _ h' => exact hx (h'.subset (by simp))
      | cons_cons _ _ => exact hx (h.subset (by simp))

namespace Catalog

variable {c : Catalog} {boxing : Bool} {t : TypeHandle} {request : List TypeHandle}

/-- Whether `j` is declared before `k` in a type. -/
def DeclaredBefore (c : Catalog) (t : TypeHandle) (j k : Ctor) : Prop :=
  [j, k].Sublist (c.ctorsOf t)

/-- Whether conversion leads neither way. -/
def Incomparable (c : Catalog) (boxing : Bool) (as bs : List TypeHandle) : Prop :=
  c.convertsAll boxing as bs = false ∧ c.convertsAll boxing bs as = false

theorem Incomparable.rank_eq {as bs : List TypeHandle} (h : c.Incomparable boxing as bs) :
    c.rank boxing bs as = .eq := by
  obtain ⟨hab, hba⟩ := h
  simp [rank, isNarrower, hab, hba]

/-! ## The scan -/

/-- The best so far gives way to more specific candidates only. -/
theorem foldl_better_improves (hc : c.Lawful) {ks : List Candidate} {b r : Candidate}
    (hks : c.Competing boxing request (b :: ks))
    (h : ks.foldl (c.better boxing) (some b) = some r) :
    r = b ∨ c.isNarrower boxing r.formals b.formals = true := by
  induction ks generalizing b with
  | nil =>
    cases h
    exact .inl rfl
  | cons k ks ih =>
    have hr : c.convertsAll boxing request r.formals = true := by
      apply hks r
      rcases c.mem_of_foldl_better h with heq | hmem
      · rw [Option.some.inj heq]
        exact List.mem_cons_self
      · exact List.mem_cons_of_mem _ hmem
    rw [List.foldl_cons] at h
    by_cases hkb : c.isNarrower boxing k.formals b.formals = true
    · rw [show c.better boxing (some b) k = some k by simp [better, rank_eq_lt.mpr hkb]] at h
      have hkks : c.Competing boxing request (k :: ks) := fun j hj => hks j (by simp [hj])
      rcases ih hkks h with rfl | hrk
      · exact .inr hkb
      · exact .inr (isNarrower_trans_of_common hc hr (hks k (by simp)) (hks b (by simp)) hrk hkb)
    · have hne : c.rank boxing k.formals b.formals ≠ .lt := fun hlt => hkb (rank_eq_lt.mp hlt)
      rw [show c.better boxing (some b) k = some b by simp [better, hne]] at h
      refine ih (fun j hj => hks j ?_) h
      rcases List.mem_cons.mp hj with rfl | hj
      · exact List.mem_cons_self
      · simp [hj]

/-- How a candidate is lost: the answer is more specific, or the candidate was no more specific
than an earlier one, which is the answer or gave way to it. -/
theorem lost_of_mostSpecific? (hc : c.Lawful) {seen ks : List Candidate} {j r : Candidate}
    (hks : c.Competing boxing request (seen ++ j :: ks))
    (h : c.mostSpecific? boxing (seen ++ j :: ks) = some r) :
    r = j ∨ c.isNarrower boxing r.formals j.formals = true ∨
      ∃ i ∈ seen, c.isNarrower boxing j.formals i.formals = false ∧
        (r = i ∨ c.isNarrower boxing r.formals i.formals = true) := by
  rw [mostSpecific?, List.foldl_append, List.foldl_cons] at h
  have hjks : c.Competing boxing request (j :: ks) := fun k hk => hks k (by simp at hk ⊢; tauto)
  cases hbest : seen.foldl (c.better boxing) none with
  | none =>
    rw [hbest] at h
    exact (foldl_better_improves hc hjks h).imp_right .inl
  | some i =>
    have hi : i ∈ seen := c.mem_of_mostSpecific? hbest
    rw [hbest] at h
    by_cases hji : c.isNarrower boxing j.formals i.formals = true
    · rw [show c.better boxing (some i) j = some j by simp [better, rank_eq_lt.mpr hji]] at h
      exact (foldl_better_improves hc hjks h).imp_right .inl
    · have hne : c.rank boxing j.formals i.formals ≠ .lt := fun hlt => hji (rank_eq_lt.mp hlt)
      rw [show c.better boxing (some i) j = some i by simp [better, hne]] at h
      have hiks : c.Competing boxing request (i :: ks) := by
        intro k hk
        rcases List.mem_cons.mp hk with rfl | hk
        · exact hks k (by simp [hi])
        · exact hks k (by simp [hk])
      exact .inr (.inr ⟨i, hi, Bool.eq_false_of_not_eq_true hji, foldl_better_improves hc hiks h⟩)

/-! ## The order of declaration -/

/-- Candidates stand in the order in which they are declared. -/
theorem candidates_sublist (c : Catalog) (boxing : Bool) (t : TypeHandle)
    (request : List TypeHandle) :
    ((c.candidates boxing t request).map Candidate.ctor).Sublist (c.ctorsOf t) := by
  unfold candidates
  induction c.ctorsOf t with
  | nil => exact .slnil
  | cons k ks ih =>
    rw [List.filterMap_cons]
    cases c.fit? boxing k request with
    | none => exact ih.cons k
    | some f => exact ih.cons_cons k

/-- Of two candidates, one that stands before the other is declared before it. -/
theorem declaredBefore_of_append {ks seen rest : List Candidate} {i j : Candidate}
    (hks : (ks.map Candidate.ctor).Sublist (c.ctorsOf t)) (h : ks = seen ++ j :: rest)
    (hi : i ∈ seen) : c.DeclaredBefore t i.ctor j.ctor := by
  refine List.Sublist.trans ?_ hks
  rw [h, List.map_append, List.map_cons]
  have hleft : [i.ctor].Sublist (seen.map Candidate.ctor) :=
    List.singleton_sublist.mpr (List.mem_map_of_mem hi)
  have hright : [j.ctor].Sublist (j.ctor :: rest.map Candidate.ctor) :=
    List.singleton_sublist.mpr List.mem_cons_self
  exact hleft.append hright

/-- `j` was lost on the way to the answer `b`: nothing leads from one to the other, and some
candidate declared before `j` is beaten by `b` and not by `j`. -/
def PassesOver (c : Catalog) (o : Opener) (policy : Policy) (t : TypeHandle)
    (request : List TypeHandle) (b j : Candidate) : Prop :=
  c.Incomparable policy.boxing b.formals j.formals ∧
    ∃ i, c.Eligible o policy t request i ∧ c.DeclaredBefore t i.ctor j.ctor ∧
      c.isNarrower policy.boxing b.formals i.formals = true ∧
      c.isNarrower policy.boxing j.formals i.formals = false

/-- What is declared before `b` and not told apart from it by specificity is beaten by something:
of the candidates that nothing beats, `b` is the one declared first. -/
def FirstServed (c : Catalog) (o : Opener) (policy : Policy) (t : TypeHandle)
    (request : List TypeHandle) (b : Candidate) : Prop :=
  ∀ j, c.Eligible o policy t request j → c.DeclaredBefore t j.ctor b.ctor →
    c.rank policy.boxing j.formals b.formals = .eq →
    ∃ i, c.Eligible o policy t request i ∧ c.isNarrower policy.boxing i.formals j.formals = true

/-- What became of the candidates declared before the answer of the scan. -/
theorem beats_or_passesOver (hc : c.Lawful) (hnodup : (c.ctorsOf t).Nodup) {o : Opener}
    {policy : Policy} {r j : Candidate}
    (h : c.mostSpecific? policy.boxing ((c.candidates policy.boxing t request).filter fun k =>
      c.mayUse o policy k.ctor) = some r)
    (hj : c.Eligible o policy t request j) (hbefore : c.DeclaredBefore t j.ctor r.ctor) :
    c.isNarrower policy.boxing r.formals j.formals = true ∨
      c.PassesOver o policy t request r j := by
  generalize hks : ((c.candidates policy.boxing t request).filter fun k =>
    c.mayUse o policy k.ctor) = ks at h
  have helig : ∀ k, k ∈ ks ↔ c.Eligible o policy t request k := fun k => by
    rw [eligible_iff, hks]
  have hcomp : c.Competing policy.boxing request ks := fun k hk => ((helig k).mp hk).converts
  have horder : (ks.map Candidate.ctor).Sublist (c.ctorsOf t) := by
    rw [← hks]
    exact (List.filter_sublist.map _).trans (c.candidates_sublist policy.boxing t request)
  obtain ⟨seen, rest, hsplit⟩ := List.append_of_mem ((helig j).mpr hj)
  -- the answer is declared after `j`, so it is neither `j` nor one that stands before `j`
  have hne : r ≠ j := by
    rintro rfl
    exact not_sublist_swap hnodup hbefore hbefore
  have hafter : ∀ i ∈ seen, r ≠ i := by
    rintro i hi rfl
    exact not_sublist_swap hnodup hbefore (declaredBefore_of_append horder hsplit hi)
  have hr := c.mem_of_mostSpecific? h
  rw [hsplit] at h
  rcases lost_of_mostSpecific? hc (hsplit ▸ hcomp) h with heq | hbeaten | ⟨i, hi, hji, hri⟩
  · exact absurd heq hne
  · exact .inl hbeaten
  have hri := hri.resolve_left (hafter i hi)
  have hmem : i ∈ ks := by simp [hsplit, hi]
  -- a way from `j` to the answer would make `j` as much better than `i` as the answer is
  have hjr : c.convertsAll policy.boxing j.formals r.formals = false := by
    by_contra hto
    rw [Bool.not_eq_false] at hto
    have hbetter := isNarrower_of_converts hc hj.converts (hcomp r hr) (hcomp i hmem) hto hri
    rw [hji] at hbetter
    cases hbetter
  cases hrj : c.convertsAll policy.boxing r.formals j.formals with
  | true => exact .inl (isNarrower_iff.mpr ⟨hrj, hjr⟩)
  | false =>
    exact .inr ⟨⟨hrj, hjr⟩, i, (helig i).mp hmem,
      declaredBefore_of_append horder hsplit hi, hri, hji⟩

end Catalog

namespace Store

variable {ω π : Type} {s : Store ω π} {t : TypeHandle} {request : List TypeHandle}

/-- The best search on a type with no exposed constructor for exactly the request. The answer
beats what is declared before it, or passes it over: then the two are not comparable, and a
candidate declared still earlier is beaten by the answer and not by the one passed over. -/
theorem Reachable.bestCtor?_precedence (hs : s.Reachable) (o : Opener) (policy : Policy)
    (ht : s.catalog.contains t = true)
    (hexact : ¬∃ k ∈ s.catalog.ctorsOf t, k.params = request ∧ s.catalog.exposes k = true) :
    ∃ r s', ((factoryWith o policy).bestCtor? t request).runFrom s = (.ok r, s') ∧
      s.catalog.Answers (s.settled o) policy t request r ∧
      ∀ k, r = some k → ∃ formals,
        s.catalog.Eligible (s.settled o) policy t request ⟨k, formals⟩ ∧
        (∀ j, s.catalog.Eligible (s.settled o) policy t request j →
          s.catalog.DeclaredBefore t j.ctor k →
          s.catalog.isNarrower policy.boxing formals j.formals = true ∨
            s.catalog.rank policy.boxing j.formals formals = .eq ∧
              s.catalog.PassesOver (s.settled o) policy t request ⟨k, formals⟩ j) ∧
        (s.catalog.FirstServed (s.settled o) policy t request ⟨k, formals⟩ ↔
          ∀ j, s.catalog.Eligible (s.settled o) policy t request j →
            s.catalog.DeclaredBefore t j.ctor k →
            s.catalog.PassesOver (s.settled o) policy t request ⟨k, formals⟩ j →
            ∃ i, s.catalog.Eligible (s.settled o) policy t request i ∧
              s.catalog.isNarrower policy.boxing i.formals j.formals = true) := by
  have hwf := hs.wellFormed
  have hnone : s.catalog.exactCtor? t request = none := by
    rw [Option.eq_none_iff_forall_ne_some]
    intro k hk
    exact hexact ⟨k, hwf.exactCtor?_eq_some.mp hk⟩
  have hdesc : ∀ k ∈ s.catalog.candidates policy.boxing t request, s.Describes k.ctor :=
    fun k hk => (hwf.of_mem_ctorsOf (Catalog.mem_candidates.mp hk).1).1
  obtain ⟨s', hrun, -, -⟩ := run_usableAmong o policy hdesc
  have hbest := (factoryWith o policy).runFrom_bestCtor?_of_not_exact
    (ne_absent_of_contains ht) ht request hnone
  simp only [factoryWith_source, source_catalog, factoryWith_policy, hrun] at hbest
  refine ⟨_, s', hbest, Catalog.answers_mostSpecific? hwf.lawful, fun k hk => ?_⟩
  obtain ⟨b, hb, rfl⟩ := Option.map_eq_some_iff.mp hk
  have helig := Catalog.eligible_iff.mpr (s.catalog.mem_of_mostSpecific? hb)
  have hlost : ∀ j, s.catalog.Eligible (s.settled o) policy t request j →
      s.catalog.DeclaredBefore t j.ctor b.ctor → _ := fun j hj hjb =>
    Catalog.beats_or_passesOver hwf.lawful (hwf.nodup_ctorsOf t) hb hj hjb
  refine ⟨b.formals, helig, fun j hj hjb => ?_, fun hfirst j hj hjb hpasses => ?_,
    fun hbeaten j hj hjb heq => ?_⟩
  · exact (hlost j hj hjb).imp_right fun hpasses => ⟨hpasses.1.rank_eq, hpasses⟩
  · exact hfirst j hj hjb hpasses.1.rank_eq
  · exact (hlost j hj hjb).elim (fun hbeats => ⟨b, helig, hbeats⟩) (hbeaten j hj hjb)

/-- Kennels and walks. A walk is for an animal with anything, for anything with a text, or for a
dog with anything. -/
def walks : Store Journal Nat :=
  kennels.apply (.declare
    { name := "Walk", sort := .classType, modifiers := { isPublic := true },
      superclass := some .object,
      ctors :=
        [ { params := [⟨100⟩, .object], modifiers := { isPublic := true },
            body := notingBody },
          { params := [.object, .string], modifiers := { isPublic := true },
            body := notingBody },
          { params := [⟨101⟩, .object], modifiers := { isPublic := true },
            body := notingBody } ] })

theorem walks_reachable : walks.Reachable := kennels_ownReachable.reachable.apply _

/-- The second constructor of a walk, which takes a text. -/
def walkWithText : Candidate where
  ctor := { handle := ⟨5⟩, owner := ⟨104⟩, params := [.object, .string],
            modifiers := { isPublic := true } }
  formals := [.object, .string]

/-- The third constructor of a walk, which takes a dog. -/
def walkOfDog : Candidate where
  ctor := { handle := ⟨6⟩, owner := ⟨104⟩, params := [⟨101⟩, .object],
            modifiers := { isPublic := true } }
  formals := [⟨101⟩, .object]

/-- A walk for a dog with a text: the walk of a dog answers, which beats the walk of an animal,
and the walk with a text is declared between the two and is more specific than neither. -/
theorem bestCtor?_precedence_walk :
    walks.Reachable ∧ walks.catalog.contains ⟨104⟩ = true ∧
    (¬∃ k ∈ walks.catalog.ctorsOf ⟨104⟩,
      k.params = [⟨101⟩, .string] ∧ walks.catalog.exposes k = true) ∧
    ∃ r s', ((factory {}).bestCtor? ⟨104⟩ [⟨101⟩, .string]).runFrom walks = (.ok r, s') ∧
      ∀ k, r = some k → ∃ formals,
        walks.catalog.Eligible (walks.settled .self) {} ⟨104⟩ [⟨101⟩, .string] ⟨k, formals⟩ ∧
        ∀ j, walks.catalog.Eligible (walks.settled .self) {} ⟨104⟩ [⟨101⟩, .string] j →
          walks.catalog.DeclaredBefore ⟨104⟩ j.ctor k →
          walks.catalog.isNarrower true formals j.formals = true ∨
            walks.catalog.rank true j.formals formals = .eq ∧
              walks.catalog.PassesOver (walks.settled .self) {} ⟨104⟩ [⟨101⟩, .string]
                ⟨k, formals⟩ j := by
  have hwalk : walks.catalog.contains ⟨104⟩ = true := by decide
  have hexact : ¬∃ k ∈ walks.catalog.ctorsOf ⟨104⟩,
      k.params = [⟨101⟩, .string] ∧ walks.catalog.exposes k = true := by decide
  obtain ⟨r, s', hrun, -, hbefore⟩ :=
    walks_reachable.bestCtor?_precedence .self {} hwalk hexact
  refine ⟨walks_reachable, hwalk, hexact, r, s', hrun, fun k hk => ?_⟩
  obtain ⟨formals, helig, hj, -⟩ := hbefore k hk
  exact ⟨formals, helig, hj⟩

/-- For a dog with a text, nothing beats the walk with a text, which is not told apart from the
walk of a dog and is declared before it. Still the walk of a dog is the answer. -/
theorem not_firstServed_walk :
    walks.Reachable ∧ walks.catalog.contains ⟨104⟩ = true ∧
    (¬∃ k ∈ walks.catalog.ctorsOf ⟨104⟩,
      k.params = [⟨101⟩, .string] ∧ walks.catalog.exposes k = true) ∧
    ((factory {}).bestCtor? ⟨104⟩ [⟨101⟩, .string]).runFrom walks =
      (.ok (some walkOfDog.ctor), walks) ∧
    walks.catalog.Eligible (walks.settled .self) {} ⟨104⟩ [⟨101⟩, .string] walkOfDog ∧
    ¬walks.catalog.FirstServed (walks.settled .self) {} ⟨104⟩ [⟨101⟩, .string] walkOfDog := by
  refine ⟨walks_reachable, by decide, by decide, rfl, ?_, ?_⟩
  · rw [Catalog.eligible_iff]
    decide
  intro hfirst
  have htext : walks.catalog.Eligible (walks.settled .self) {} ⟨104⟩ [⟨101⟩, .string]
      walkWithText := by
    rw [Catalog.eligible_iff]
    decide
  have hbefore : walks.catalog.DeclaredBefore ⟨104⟩ walkWithText.ctor walkOfDog.ctor := by
    unfold Catalog.DeclaredBefore
    decide
  obtain ⟨i, hi, hbeats⟩ := hfirst walkWithText htext hbefore (by decide)
  have hunbeaten : ∀ i ∈ (walks.catalog.candidates true ⟨104⟩ [⟨101⟩, .string]).filter
      (fun k => walks.catalog.mayUse (walks.settled .self) {} k.ctor),
      walks.catalog.isNarrower true i.formals walkWithText.formals = false := by decide
  rw [hunbeaten i (Catalog.eligible_iff.mp hi)] at hbeats
  cases hbeats

end Store

end BestFit
