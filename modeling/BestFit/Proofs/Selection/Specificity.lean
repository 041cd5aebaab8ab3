import BestFit.Proofs.Conversion.Detours
import BestFit.Proofs.Selection.Applicability

/-!
# The most specific candidate

Specificity is not transitive in general, as conversion is not, but it is among parameter
lists that one request converts to (`isNarrower_trans_of_common`). Every candidate for a
request presents such a list (`convertsAll_formals`). So the scan for the most specific
candidate, which keeps one candidate and never looks back, ends with one that no other
candidate is more specific than (`unbeaten_of_mostSpecific?`).
-/
namespace BestFit.Catalog

variable {c : Catalog} {boxing : Bool}

/-! ## Specificity -/

/-- Lists of one length fail to convert back exactly if they do so somewhere. -/
theorem narrowsSomewhere_eq {as bs : List TypeHandle} (h : as.length = bs.length) :
    c.narrowsSomewhere boxing as bs = !c.convertsAll boxing bs as := by
  induction as generalizing bs with
  | nil =>
    obtain rfl := List.eq_nil_of_length_eq_zero h.symm
    rfl
  | cons a as ih =>
    cases bs with
    | nil => cases h
    | cons b bs =>
      have ih := ih (Nat.succ.inj h)
      simp only [narrowsSomewhere, List.zip_cons_cons, List.any_cons] at ih ⊢
      rw [ih, convertsAll_cons, Bool.not_and]

/-- More specific means that conversion leads one way and not back. -/
theorem isNarrower_iff {as bs : List TypeHandle} :
    c.isNarrower boxing as bs = true ↔
      c.convertsAll boxing as bs = true ∧ c.convertsAll boxing bs as = false := by
  rw [isNarrower, Bool.and_eq_true]
  refine and_congr_right fun h => ?_
  rw [narrowsSomewhere_eq (Catalog.convertsAll_length h), Bool.not_eq_true']

theorem isNarrower_irrefl (as : List TypeHandle) : c.isNarrower boxing as as = false := by
  rw [← Bool.not_eq_true, isNarrower_iff]
  rintro ⟨h, hback⟩
  rw [h] at hback
  cases hback

theorem rank_eq_lt {as bs : List TypeHandle} :
    c.rank boxing as bs = .lt ↔ c.isNarrower boxing as bs = true := by
  unfold rank
  by_cases h : c.isNarrower boxing as bs = true
  · simp [h]
  · by_cases h' : c.isNarrower boxing bs as = true <;> simp [h, h']

theorem convertsAll_trans_of_common (hc : c.Lawful) {xs as bs es : List TypeHandle}
    (hxa : c.convertsAll boxing xs as = true) (hxb : c.convertsAll boxing xs bs = true)
    (hxe : c.convertsAll boxing xs es = true) (hab : c.convertsAll boxing as bs = true)
    (hbe : c.convertsAll boxing bs es = true) : c.convertsAll boxing as es = true := by
  induction xs generalizing as bs es with
  | nil =>
    obtain rfl := List.eq_nil_of_length_eq_zero (Catalog.convertsAll_length hxa).symm
    obtain rfl := List.eq_nil_of_length_eq_zero (Catalog.convertsAll_length hxe).symm
    rfl
  | cons x xs ih =>
    obtain ⟨a, as, rfl⟩ := List.exists_cons_of_length_eq_add_one (Catalog.convertsAll_length hxa).symm
    obtain ⟨b, bs, rfl⟩ := List.exists_cons_of_length_eq_add_one (Catalog.convertsAll_length hxb).symm
    obtain ⟨e, es, rfl⟩ := List.exists_cons_of_length_eq_add_one (Catalog.convertsAll_length hxe).symm
    simp only [convertsAll_cons, Bool.and_eq_true, converts_iff hc.finite] at hxa hxb hxe hab hbe ⊢
    exact ⟨Converts.trans_of_common hc hxa.1 hxb.1 hxe.1 hab.1 hbe.1,
      ih hxa.2 hxb.2 hxe.2 hab.2 hbe.2⟩

/-- Among lists that one request converts to, what converts to a more specific one is as
specific. -/
theorem isNarrower_of_converts (hc : c.Lawful) {xs as bs es : List TypeHandle}
    (hxa : c.convertsAll boxing xs as = true) (hxb : c.convertsAll boxing xs bs = true)
    (hxe : c.convertsAll boxing xs es = true) (hab : c.convertsAll boxing as bs = true)
    (hbe : c.isNarrower boxing bs es = true) : c.isNarrower boxing as es = true := by
  rw [isNarrower_iff] at hbe ⊢
  refine ⟨convertsAll_trans_of_common hc hxa hxb hxe hab hbe.1, ?_⟩
  -- a way back from `es` to `as` would lead on to `bs`
  by_contra hback
  rw [Bool.not_eq_false] at hback
  have heb := convertsAll_trans_of_common hc hxe hxa hxb hback hab
  rw [hbe.2] at heb
  cases heb

/-- Specificity is transitive among lists that one request converts to. -/
theorem isNarrower_trans_of_common (hc : c.Lawful) {xs as bs es : List TypeHandle}
    (hxa : c.convertsAll boxing xs as = true) (hxb : c.convertsAll boxing xs bs = true)
    (hxe : c.convertsAll boxing xs es = true) (hab : c.isNarrower boxing as bs = true)
    (hbe : c.isNarrower boxing bs es = true) : c.isNarrower boxing as es = true :=
  isNarrower_of_converts hc hxa hxb hxe (isNarrower_iff.mp hab).1 hbe

/-! ## The scan -/

/-- One of the candidates that none of them is more specific than. -/
def Unbeaten (c : Catalog) (boxing : Bool) (ks : List Candidate) (b : Candidate) : Prop :=
  b ∈ ks ∧ ∀ k ∈ ks, c.isNarrower boxing k.formals b.formals = false

/-- Candidates that present lists which one request converts to. -/
def Competing (c : Catalog) (boxing : Bool) (request : List TypeHandle)
    (ks : List Candidate) : Prop :=
  ∀ k ∈ ks, c.convertsAll boxing request k.formals = true

/-- One step of the scan: the next candidate takes over, or is no better. -/
theorem Unbeaten.better (hc : c.Lawful) {request : List TypeHandle} {ks : List Candidate}
    {b k : Candidate} (hb : c.Unbeaten boxing ks b)
    (hks : c.Competing boxing request (ks ++ [k])) :
    ∃ b', c.better boxing (some b) k = some b' ∧ c.Unbeaten boxing (ks ++ [k]) b' := by
  obtain ⟨hmem, hnone⟩ := hb
  by_cases hkb : c.isNarrower boxing k.formals b.formals = true
  · refine ⟨k, by simp [Catalog.better, rank_eq_lt.mpr hkb], by simp, fun j hj => ?_⟩
    rcases List.mem_append.mp hj with hj | hj
    · -- what beats the new candidate would have beaten the old one
      by_contra hjk
      rw [Bool.not_eq_false] at hjk
      have hjb := isNarrower_trans_of_common hc (hks j (by simp [hj])) (hks k (by simp))
        (hks b (by simp [hmem])) hjk hkb
      rw [hnone j hj] at hjb
      cases hjb
    · rw [List.mem_singleton.mp hj]
      exact isNarrower_irrefl _
  · have hne : c.rank boxing k.formals b.formals ≠ .lt := fun h => hkb (rank_eq_lt.mp h)
    refine ⟨b, by simp [Catalog.better, hne], by simp [hmem], fun j hj => ?_⟩
    rcases List.mem_append.mp hj with hj | hj
    · exact hnone j hj
    · rw [List.mem_singleton.mp hj]
      exact Bool.eq_false_of_not_eq_true hkb

/-- The scan keeps an unbeaten candidate of those that it went through. -/
theorem Unbeaten.foldl_better (hc : c.Lawful) {request : List TypeHandle}
    {seen ks : List Candidate} {b : Candidate} (hb : c.Unbeaten boxing seen b)
    (hks : c.Competing boxing request (seen ++ ks)) :
    ∃ b', ks.foldl (c.better boxing) (some b) = some b' ∧ c.Unbeaten boxing (seen ++ ks) b' := by
  induction ks generalizing seen b with
  | nil => exact ⟨b, rfl, by simpa using hb⟩
  | cons k ks ih =>
    have hk : c.Competing boxing request (seen ++ [k]) :=
      fun j hj => hks j (by simp at hj ⊢; tauto)
    obtain ⟨b', hb', hunb⟩ := hb.better hc hk
    rw [List.append_cons] at hks ⊢
    rw [List.foldl_cons, hb']
    exact ih hunb hks

/-- The scan finds an unbeaten candidate where there is any candidate at all. -/
theorem exists_mostSpecific? (hc : c.Lawful) {request : List TypeHandle} {ks : List Candidate}
    (hks : c.Competing boxing request ks) (hne : ks ≠ []) :
    ∃ b, c.mostSpecific? boxing ks = some b ∧ c.Unbeaten boxing ks b := by
  cases ks with
  | nil => exact absurd rfl hne
  | cons k ks =>
    have hk : c.Unbeaten boxing [k] k := ⟨by simp, fun j hj => by
      rw [List.mem_singleton.mp hj]
      exact isNarrower_irrefl _⟩
    exact hk.foldl_better hc hks

theorem mostSpecific?_eq_none (hc : c.Lawful) {request : List TypeHandle}
    {ks : List Candidate} (hks : c.Competing boxing request ks) :
    c.mostSpecific? boxing ks = none ↔ ks = [] := by
  refine ⟨fun h => ?_, fun h => by rw [h]; rfl⟩
  by_contra hne
  obtain ⟨b, hb, -⟩ := exists_mostSpecific? hc hks hne
  rw [h] at hb
  cases hb

theorem unbeaten_of_mostSpecific? (hc : c.Lawful) {request : List TypeHandle}
    {ks : List Candidate} (hks : c.Competing boxing request ks) {b : Candidate}
    (h : c.mostSpecific? boxing ks = some b) : c.Unbeaten boxing ks b := by
  have hne : ks ≠ [] := by
    rintro rfl
    cases h
  obtain ⟨b', hb', hunb⟩ := exists_mostSpecific? hc hks hne
  obtain rfl := Option.some.inj (h.symm.trans hb')
  exact hunb

end BestFit.Catalog
