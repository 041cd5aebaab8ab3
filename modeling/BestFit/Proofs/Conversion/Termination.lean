import BestFit.Proofs.Conversion.Characterization
import Mathlib.Dynamics.PeriodicPts.Defs

/-!
# Where conversion comes to an end

Conversion step by step: array types are compared by their components, and every other type is
looked for upward, with a stack of types to visit and a record of those visited. The record brings
the way up to an end, whatever circles the links form. Nothing of the kind is kept for components,
so two array types that nest without end are compared without end, unless they meet. Main statement:
`ends_iff`; `not_ends_coils` has two types whose comparison never ends.
-/
namespace BestFit

namespace Catalog

open Relation (ReflTransGen)

variable {c : Catalog} {boxing : Bool} {a b x y t target : TypeHandle} {r : Bool}

/-! ## Step by step -/

/-- What is under way in the course of a conversion. -/
inductive Evaluation where
  /-- Two reference types are compared. -/
  | comparing (a b : TypeHandle)
  /-- `target` is looked for upward: types still to be visited, next one first, and those that
  were. -/
  | climbing (target : TypeHandle) (pending seen : List TypeHandle)
  | answered (r : Bool)

/-- One step. -/
def advance (c : Catalog) : Evaluation → Evaluation
  | .comparing a b =>
      if c.contains a = false ∨ c.contains b = false then .answered false
      else if b = .object then .answered true
      else match c.component? a, c.component? b with
        | none, _ => .climbing b [a] []
        | some _, none => .answered false
        | some x, some y =>
            if x = y then .answered true
            else if (Primitive.ofHandle? x).isSome || (Primitive.ofHandle? y).isSome then
              .answered false
            else .comparing x y
  | .climbing _ [] _ => .answered false
  | .climbing target (t :: ts) seen =>
      if t = target then .answered true
      else if t ∈ seen then .climbing target ts seen
      else .climbing target ((c.parents t).reverse ++ ts) (t :: seen)
  | .answered r => .answered r

/-- A finite number of steps leads to the answer. -/
inductive Ends (c : Catalog) : Evaluation → Bool → Prop
  | now (r : Bool) : Ends c (.answered r) r
  | later {e : Evaluation} {r : Bool} (h : Ends c (c.advance e) r) : Ends c e r

/-- Where a conversion starts: with an answer, or with the comparison of two reference types, the
first of them adapted to the second. -/
def start (c : Catalog) (boxing : Bool) (a b : TypeHandle) : Evaluation :=
  match c.conversion? 0 boxing a b with
  | some r => .answered r
  | none => .comparing ((adapted boxing a b).getD a) b

theorem ends_advance_iff {e : Evaluation} : c.Ends (c.advance e) r ↔ c.Ends e r := by
  refine ⟨.later, fun h => ?_⟩
  cases h with
  | now r => exact .now r
  | later h => exact h

theorem ends_answered_iff {q : Bool} : c.Ends (.answered q) r ↔ q = r := by
  constructor
  · intro h
    generalize he : Evaluation.answered q = e at h
    induction h with
    | now r => exact Evaluation.answered.inj he
    | later _ ih =>
      subst he
      exact ih rfl
  · rintro rfl
    exact .now q

/-- The answer does not depend on the number of steps. -/
theorem Ends.unique {e : Evaluation} {q : Bool} (h : c.Ends e q) (h' : c.Ends e r) : q = r := by
  induction h with
  | now q => exact ends_answered_iff.mp h'
  | later _ ih => exact ih (ends_advance_iff.mpr h')

/-! ## The way up -/

/-- What is true of the types visited so far: the target is not among them, and what lies one step
above them is visited or pending. -/
structure Explored (c : Catalog) (target : TypeHandle) (pending seen : List TypeHandle) :
    Prop where
  missed : target ∉ seen
  closed : ∀ v ∈ seen, ∀ u, c.IsParent v u → u ∈ seen ∨ u ∈ pending

namespace Explored

variable {ts seen : List TypeHandle}

theorem initial (target : TypeHandle) (pending : List TypeHandle) :
    c.Explored target pending [] := ⟨nofun, nofun⟩

theorem skip (h : c.Explored target (t :: ts) seen) (ht : t ∈ seen) :
    c.Explored target ts seen where
  missed := h.missed
  closed v hv u hvu := by
    rcases h.closed v hv u hvu with hu | hu
    · exact .inl hu
    · rcases List.mem_cons.mp hu with rfl | hu
      · exact .inl ht
      · exact .inr hu

theorem visit (h : c.Explored target (t :: ts) seen) (ht : t ≠ target) :
    c.Explored target ((c.parents t).reverse ++ ts) (t :: seen) where
  missed := by
    intro hmem
    rcases List.mem_cons.mp hmem with heq | hmem
    · exact ht heq.symm
    · exact h.missed hmem
  closed v hv u hvu := by
    rcases List.mem_cons.mp hv with rfl | hv
    · exact .inr (List.mem_append_left _ (List.mem_reverse.mpr hvu))
    · rcases h.closed v hv u hvu with hu | hu
      · exact .inl (List.mem_cons_of_mem _ hu)
      · rcases List.mem_cons.mp hu with rfl | hu
        · exact .inl List.mem_cons_self
        · exact .inr (List.mem_append_right _ hu)

/-- A way up to the target leaves the types visited through a pending one. -/
theorem leave {pending : List TypeHandle} (h : c.Explored target pending seen) {v : TypeHandle}
    (hv : v ∈ seen) (hup : ReflTransGen c.IsParent v target) :
    ∃ u ∈ pending, ReflTransGen c.IsParent u target := by
  induction hup using ReflTransGen.head_induction_on with
  | refl => exact absurd hv h.missed
  | @head v u hvu hup ih =>
    rcases h.closed v hv u hvu with hu | hu
    · exact ih hu
    · exact ⟨u, hu, hup⟩

end Explored

/-- The declared types that are still to be visited. -/
def unseen (c : Catalog) (seen : List TypeHandle) : Finset TypeHandle :=
  c.handles.toFinset \ seen.toFinset

theorem mem_unseen {seen : List TypeHandle} : t ∈ c.unseen seen ↔ t ∈ c.handles ∧ t ∉ seen := by
  simp [unseen]

theorem unseen_cons_subset (seen : List TypeHandle) : c.unseen (t :: seen) ⊆ c.unseen seen := by
  intro u hu
  obtain ⟨hu, hnew⟩ := mem_unseen.mp hu
  exact mem_unseen.mpr ⟨hu, fun hmem => hnew (List.mem_cons_of_mem _ hmem)⟩

theorem parents_of_not_contains (ht : c.contains t = false) : c.parents t = [] := by
  refine List.eq_nil_iff_forall_not_mem.mpr fun u hu => ?_
  rw [IsParent.contains (b := u) hu] at ht
  cases ht

theorem card_unseen_cons_lt {seen : List TypeHandle} (ht : c.contains t = true)
    (hnew : t ∉ seen) : (c.unseen (t :: seen)).card < (c.unseen seen).card := by
  refine Finset.card_lt_card (Finset.ssubset_iff_subset_ne.mpr ⟨unseen_cons_subset seen, ?_⟩)
  intro heq
  have hmem : t ∈ c.unseen seen :=
    mem_unseen.mpr ⟨mem_handles_of_contains ht, hnew⟩
  rw [← heq, mem_unseen] at hmem
  exact hmem.2 List.mem_cons_self

/-- The target lies above a type if that is not the target itself and it lies above a parent. -/
theorem exists_above_visit {ts : List TypeHandle} (ht : t ≠ target) :
    (∃ u ∈ (c.parents t).reverse ++ ts, ReflTransGen c.IsParent u target) ↔
      ∃ u ∈ t :: ts, ReflTransGen c.IsParent u target := by
  constructor
  · rintro ⟨u, hu, hup⟩
    rcases List.mem_append.mp hu with hu | hu
    · exact ⟨t, List.mem_cons_self, .head (List.mem_reverse.mp hu) hup⟩
    · exact ⟨u, List.mem_cons_of_mem _ hu, hup⟩
  · rintro ⟨u, hu, hup⟩
    rcases List.mem_cons.mp hu with rfl | hu
    · rcases ReflTransGen.cases_head hup with rfl | ⟨v, huv, hup⟩
      · exact absurd rfl ht
      · exact ⟨v, List.mem_append_left _ (List.mem_reverse.mpr huv), hup⟩
    · exact ⟨u, List.mem_append_right _ hu, hup⟩

/-- Looking upward comes to an end: a step either visits a declared type for the first time, or
leaves fewer types pending. The target is found if it lies above a pending type. -/
theorem exists_ends_climbing {pending seen : List TypeHandle}
    (h : c.Explored target pending seen) :
    ∃ r, c.Ends (.climbing target pending seen) r ∧
      (r = true ↔ ∃ t ∈ pending, ReflTransGen c.IsParent t target) := by
  -- first by the types not yet visited, then by those pending
  generalize hm : (c.unseen seen).card = m
  replace hm := hm.le
  induction m using Nat.strong_induction_on generalizing pending seen with
  | _ m ih =>
  induction pending generalizing seen with
  | nil => exact ⟨false, .later (.now false), by simp⟩
  | cons t ts ihts =>
    by_cases ht : t = target
    · refine ⟨true, .later ?_, by simp [ht, ReflTransGen.refl]⟩
      rw [advance, if_pos ht]
      exact .now true
    by_cases hseen : t ∈ seen
    · obtain ⟨r, hends, hr⟩ := ihts (h.skip hseen) hm
      refine ⟨r, .later ?_, hr.trans ⟨?_, ?_⟩⟩
      · rw [advance, if_neg ht, if_pos hseen]
        exact hends
      · rintro ⟨u, hu, hup⟩
        exact ⟨u, List.mem_cons_of_mem _ hu, hup⟩
      · rintro ⟨u, hu, hup⟩
        rcases List.mem_cons.mp hu with rfl | hu
        · exact (h.skip hseen).leave hseen hup
        · exact ⟨u, hu, hup⟩
    · have hvisit := h.visit ht
      have hrest : ∃ r, c.Ends (.climbing target ((c.parents t).reverse ++ ts) (t :: seen)) r ∧
          (r = true ↔ ∃ u ∈ (c.parents t).reverse ++ ts, ReflTransGen c.IsParent u target) := by
        cases hc : c.contains t with
        | true =>
          have hlt := card_unseen_cons_lt hc hseen
          exact ih _ (lt_of_lt_of_le hlt hm) hvisit le_rfl
        | false =>
          -- nothing is known above an undeclared type
          rw [parents_of_not_contains hc] at hvisit ⊢
          exact ihts hvisit ((Finset.card_le_card (unseen_cons_subset seen)).trans hm)
      obtain ⟨r, hends, hr⟩ := hrest
      refine ⟨r, .later ?_, hr.trans ?_⟩
      · rw [advance, if_neg ht, if_neg hseen]
        exact hends
      · exact exists_above_visit ht

/-- Looking upward from one type answers as `isAbove` does. -/
theorem ends_climbing_iff : c.Ends (.climbing target [t] []) r ↔ r = c.isAbove target t := by
  obtain ⟨q, hends, hq⟩ := exists_ends_climbing (Explored.initial (c := c) target [t])
  have hsame : q = c.isAbove target t := by
    rw [Bool.eq_iff_iff, hq, isAbove_iff]
    simp
  rw [← hsame]
  exact ⟨fun h => h.unique hends, fun h => h ▸ hends⟩

/-! ## Level by level -/

/-- Two array types whose comparison is left to their components: reference types that differ, the
second array type not being the root class. -/
structure LeavesTo (c : Catalog) (a b x y : TypeHandle) : Prop where
  left : c.HasComponent a x
  right : c.HasComponent b y
  ne_root : b ≠ .object
  apart : x ≠ y
  left_reference : Primitive.ofHandle? x = none
  right_reference : Primitive.ofHandle? y = none

theorem compare_eq_descend : c.compare a b = .descend x y ↔ c.LeavesTo a b x y := by
  constructor
  · intro h
    rw [compare_eq] at h
    split at h
    · cases h
    split at h
    · cases h
    next hroot =>
    split at h
    · cases h
    · cases h
    next x' y' hx hy =>
    split at h
    · cases h
    next hne =>
    split at h
    · cases h
    next hp =>
    cases h
    simp only [Bool.or_eq_true, not_or, Bool.not_eq_true, Option.isSome_eq_false_iff,
      Option.isNone_iff_eq_none] at hp
    exact ⟨hx, hy, hroot, hne, hp.1, hp.2⟩
  · intro h
    rw [compare_eq, if_neg (by simp [h.left.contains, h.right.contains]), if_neg h.ne_root, h.left,
      h.right]
    simp [h.apart, h.left_reference, h.right_reference]

theorem advance_of_leavesTo (h : c.LeavesTo a b x y) :
    c.advance (.comparing a b) = .comparing x y := by
  rw [advance, if_neg (by simp [h.left.contains, h.right.contains]), if_neg h.ne_root, h.left,
    h.right]
  simp [h.apart, h.left_reference, h.right_reference]

/-- The steps of a comparison, up to the next one. -/
theorem ends_comparing_iff :
    c.Ends (.comparing a b) r ↔
      match c.compare a b with
      | .settled q => q = r
      | .descend x y => c.Ends (.comparing x y) r := by
  rw [← ends_advance_iff, advance, compare_eq]
  by_cases hcon : c.contains a = false ∨ c.contains b = false
  · rw [if_pos hcon, if_pos hcon]
    exact ends_answered_iff
  rw [if_neg hcon, if_neg hcon]
  by_cases hroot : b = .object
  · rw [if_pos hroot, if_pos hroot]
    exact ends_answered_iff
  rw [if_neg hroot, if_neg hroot]
  cases c.component? a with
  | none => exact ends_climbing_iff.trans eq_comm
  | some x =>
    cases c.component? b with
    | none => exact ends_answered_iff
    | some y =>
      by_cases hxy : x = y
      · simp only [if_pos hxy]
        exact ends_answered_iff
      · by_cases hp : (Primitive.ofHandle? x).isSome || (Primitive.ofHandle? y).isSome
        · simp only [if_neg hxy, if_pos hp]
          exact ends_answered_iff
        · simp only [if_neg hxy, if_neg hp]

/-- A comparison ends as soon as enough levels are looked through, and only then. -/
theorem ends_comparing_iff_refersTo :
    c.Ends (.comparing a b) r ↔ ∃ n, c.refersTo n a b = some r := by
  constructor
  · intro h
    generalize he : Evaluation.comparing a b = e at h
    induction h generalizing a b with
    | now r => cases he
    | later h ih =>
      subst he
      have hends := ends_comparing_iff.mp (.later h)
      cases hc : c.compare a b with
      | settled q =>
        rw [hc] at hends
        exact ⟨1, by rw [refersTo, hc, hends]⟩
      | descend x y =>
        obtain ⟨n, hn⟩ := ih (advance_of_leavesTo (compare_eq_descend.mp hc)).symm
        refine ⟨n + 1, ?_⟩
        rw [refersTo, hc]
        exact hn
  · rintro ⟨n, h⟩
    induction n generalizing a b with
    | zero => cases h
    | succ n ih =>
      rw [refersTo] at h
      rw [ends_comparing_iff]
      cases hc : c.compare a b with
      | settled q =>
        rw [hc] at h
        exact Option.some.inj h
      | descend x y =>
        rw [hc] at h
        exact ih h

/-! ## Without end -/

/-- Two array types nest side by side without end and without meeting: each is an array of arrays of
arrays and so on, and at every level the comparison is left to the components. -/
def NestApart (c : Catalog) (a b : TypeHandle) : Prop :=
  ∃ f g : Nat → TypeHandle, f 0 = a ∧ g 0 = b ∧
    ∀ n, c.LeavesTo (f n) (g n) (f (n + 1)) (g (n + 1))

theorem NestApart.refersTo_eq_none (h : c.NestApart a b) (n : Nat) : c.refersTo n a b = none := by
  obtain ⟨f, g, rfl, rfl, hfg⟩ := h
  induction n generalizing f g with
  | zero => rfl
  | succ n ih =>
    rw [refersTo, compare_eq_descend.mpr (hfg 0)]
    exact ih (fun i => f (i + 1)) (fun i => g (i + 1)) fun i => hfg (i + 1)

/-- The component of an array type. Other types stand for themselves. -/
def inner (c : Catalog) (t : TypeHandle) : TypeHandle := (c.component? t).getD t

theorem HasComponent.inner_eq (h : c.HasComponent a x) : c.inner a = x := by
  rw [inner, h, Option.getD_some]

/-- Levels that do not settle a comparison lead from components to components. -/
theorem leavesTo_of_refersTo_eq_none {n : Nat} (h : c.refersTo n a b = none) {i : Nat}
    (hi : i < n) :
    c.LeavesTo (c.inner^[i] a) (c.inner^[i] b) (c.inner^[i + 1] a) (c.inner^[i + 1] b) := by
  induction n generalizing a b i with
  | zero => omega
  | succ n ih =>
    rw [refersTo] at h
    cases hc : c.compare a b with
    | settled q =>
      rw [hc] at h
      cases h
    | descend x y =>
      rw [hc] at h
      have hfirst := compare_eq_descend.mp hc
      obtain rfl := hfirst.left.inner_eq
      obtain rfl := hfirst.right.inner_eq
      cases i with
      | zero => exact hfirst
      | succ i => exact ih h (Nat.lt_of_succ_lt_succ hi)

section Orbits

open Function (IsPeriodicPt periodicPts)

variable {α : Type} {f : α → α} {S : Finset α} {u : α}

/-- What stays among finitely many for longer than there are such comes back to where it was. -/
theorem exists_return (hS : ∀ i ≤ S.card, f^[i] u ∈ S) :
    ∃ i j, i < j ∧ j ≤ S.card ∧ f^[i] u = f^[j] u := by
  have hmaps : Set.MapsTo (fun i => f^[i] u) (Finset.range (S.card + 1)) S := fun i hi =>
    hS i (Nat.lt_succ_iff.mp (Finset.mem_range.mp hi))
  obtain ⟨i, hi, j, hj, hne, heq⟩ :=
    Finset.exists_ne_map_eq_of_card_lt_of_maps_to (by simp) hmaps
  rw [Finset.mem_range] at hi hj
  rcases Nat.lt_or_gt_of_ne hne with hij | hji
  · exact ⟨i, j, hij, by omega, heq⟩
  · exact ⟨j, i, hji, by omega, heq.symm⟩

/-- From then on it goes in a circle, and meets nothing new. -/
theorem orbit_of_card_le (hS : ∀ i ≤ S.card, f^[i] u ∈ S) :
    (∀ k, S.card ≤ k → f^[k] u ∈ periodicPts f) ∧ ∀ k, ∃ i ≤ S.card, f^[k] u = f^[i] u := by
  obtain ⟨i, j, hij, hj, heq⟩ := exists_return hS
  have hperiod : IsPeriodicPt f (j - i) (f^[i] u) := by
    show f^[j - i] (f^[i] u) = f^[i] u
    rw [← Function.iterate_add_apply, Nat.sub_add_cancel hij.le, heq]
  have hlater : ∀ k, i ≤ k → f^[k] u = f^[k - i] (f^[i] u) := by
    intro k hk
    rw [← Function.iterate_add_apply, Nat.sub_add_cancel hk]
  refine ⟨fun k hk => ?_, fun k => ?_⟩
  · rw [hlater k (by omega)]
    exact Function.mk_mem_periodicPts (Nat.sub_pos_of_lt hij) (hperiod.apply_iterate _)
  · by_cases hk : k ≤ S.card
    · exact ⟨k, hk, rfl⟩
    · have hmod := Nat.mod_lt (k - i) (Nat.sub_pos_of_lt hij)
      refine ⟨(k - i) % (j - i) + i, by omega, ?_⟩
      rw [hlater k (by omega), Function.iterate_add_apply, hperiod.iterate_mod_apply]

/-- In circles, what differs goes on to differ. -/
theorem iterate_ne_of_periodic {v : α} {n : Nat} (hu : ∀ k, n ≤ k → f^[k] u ∈ periodicPts f)
    (hv : ∀ k, n ≤ k → f^[k] v ∈ periodicPts f) (hne : f^[n] u ≠ f^[n] v) {k : Nat} (hk : n ≤ k) :
    f^[k] u ≠ f^[k] v := by
  induction k, hk using Nat.le_induction with
  | base => exact hne
  | succ k hk ih =>
    intro heq
    rw [Function.iterate_succ_apply', Function.iterate_succ_apply'] at heq
    obtain ⟨p, hp, hpu⟩ := hu k hk
    obtain ⟨q, hq, hqv⟩ := hv k hk
    exact ih (hpu.eq_of_apply_eq hqv hp hq heq)

end Orbits

/-- What `levels` levels do not settle, no number of levels does: both chains of components have
come back to where they were by then. -/
theorem nestApart_of_refersTo_eq_none (h : c.refersTo c.levels a b = none) : c.NestApart a b := by
  have hlevel : ∀ i ≤ c.handles.toFinset.card,
      c.LeavesTo (c.inner^[i] a) (c.inner^[i] b) (c.inner^[i + 1] a) (c.inner^[i + 1] b) :=
    fun i hi => leavesTo_of_refersTo_eq_none h
      (Nat.lt_succ_of_le (hi.trans (List.toFinset_card_le _)))
  obtain ⟨hleft, hleftOld⟩ := orbit_of_card_le fun i hi =>
    List.mem_toFinset.mpr (mem_handles_of_contains (hlevel i hi).left.contains)
  obtain ⟨hright, hrightOld⟩ := orbit_of_card_le fun i hi =>
    List.mem_toFinset.mpr (mem_handles_of_contains (hlevel i hi).right.contains)
  have hapart : ∀ n, c.inner^[n + 1] a ≠ c.inner^[n + 1] b := by
    intro n
    by_cases hn : n ≤ c.handles.toFinset.card
    · exact (hlevel n hn).apart
    · exact iterate_ne_of_periodic (fun k hk => hleft k (Nat.le_of_succ_le hk))
        (fun k hk => hright k (Nat.le_of_succ_le hk)) (hlevel _ le_rfl).apart (by omega)
  have hsucc : ∀ n t, c.inner^[n + 1] t = c.inner (c.inner^[n] t) := fun n t =>
    Function.iterate_succ_apply' c.inner n t
  refine ⟨fun n => c.inner^[n] a, fun n => c.inner^[n] b, rfl, rfl, fun n => ?_⟩
  show c.LeavesTo (c.inner^[n] a) (c.inner^[n] b) (c.inner^[n + 1] a) (c.inner^[n + 1] b)
  -- on either side, the level is one of the first few over again
  obtain ⟨i, hi, hia⟩ := hleftOld n
  obtain ⟨j, hj, hjb⟩ := hrightOld n
  have hia' : c.inner^[n + 1] a = c.inner^[i + 1] a := by rw [hsucc, hsucc, hia]
  have hjb' : c.inner^[n + 1] b = c.inner^[j + 1] b := by rw [hsucc, hsucc, hjb]
  exact {
    left := by rw [hia, hia']; exact (hlevel i hi).left
    right := by rw [hjb, hjb']; exact (hlevel j hj).right
    ne_root := by rw [hjb]; exact (hlevel j hj).ne_root
    apart := hapart n
    left_reference := by rw [hia']; exact (hlevel i hi).left_reference
    right_reference := by rw [hjb']; exact (hlevel j hj).right_reference }

/-! ## Conversions -/

/-- A conversion is settled before any level is looked through, or it is the comparison of two
reference types. -/
theorem conversion?_cases (c : Catalog) (boxing : Bool) (a b : TypeHandle) :
    (∃ r, ∀ n, c.conversion? n boxing a b = some r) ∨
      ∀ n, c.conversion? n boxing a b = c.refersTo n ((adapted boxing a b).getD a) b := by
  unfold conversion?
  split
  · exact .inl ⟨false, fun _ => rfl⟩
  split
  · exact .inl ⟨_, fun _ => rfl⟩
  split
  · exact .inl ⟨true, fun _ => rfl⟩
  cases hadapted : adapted boxing a b with
  | none => exact .inl ⟨false, fun _ => rfl⟩
  | some a' =>
    by_cases hab : a' = b
    · exact .inl ⟨true, fun _ => if_pos hab⟩
    simp only [if_neg hab, Option.getD_some, widensOrRefers]
    cases Primitive.ofHandle? a' with
    | none =>
      cases Primitive.ofHandle? b with
      | none => exact .inr fun _ => rfl
      | some q => exact .inl ⟨false, fun _ => rfl⟩
    | some p =>
      cases Primitive.ofHandle? b with
      | none => exact .inl ⟨false, fun _ => rfl⟩
      | some q => exact .inl ⟨p.widensTo q, fun _ => rfl⟩

/-- A conversion that ends has the answer that `levels` levels give. -/
theorem ends_start_iff :
    c.Ends (c.start boxing a b) r ↔ c.conversion? c.levels boxing a b = some r := by
  rcases c.conversion?_cases boxing a b with ⟨q, hq⟩ | hrefers
  · rw [start, hq, hq, ends_answered_iff, Option.some.injEq]
  · rw [start, hrefers, hrefers, refersTo, ends_comparing_iff_refersTo]
    constructor
    · rintro ⟨n, hn⟩
      cases hlevels : c.refersTo c.levels ((adapted boxing a b).getD a) b with
      | none =>
        rw [(nestApart_of_refersTo_eq_none hlevels).refersTo_eq_none n] at hn
        cases hn
      | some q =>
        have hmore := c.refersTo_mono (Nat.le_max_left c.levels n) hlevels
        rw [c.refersTo_mono (Nat.le_max_right c.levels n) hn] at hmore
        exact hmore.symm
    · exact fun h => ⟨_, h⟩

/-- A conversion goes on for ever exactly if it comes down to two array types that nest apart. -/
theorem not_ends_start_iff :
    (¬∃ r, c.Ends (c.start boxing a b) r) ↔
      ∃ x y, c.start boxing a b = .comparing x y ∧ c.NestApart x y := by
  constructor
  · intro h
    rcases c.conversion?_cases boxing a b with ⟨q, hq⟩ | hrefers
    · exact absurd ⟨q, ends_start_iff.mpr (hq c.levels)⟩ h
    · refine ⟨_, b, by rw [start, hrefers, refersTo], nestApart_of_refersTo_eq_none ?_⟩
      refine Option.eq_none_iff_forall_ne_some.mpr fun r hr => h ⟨r, ends_start_iff.mpr ?_⟩
      rw [hrefers, hr]
  · rintro ⟨x, y, hstart, hnest⟩ ⟨r, hends⟩
    rw [hstart, ends_comparing_iff_refersTo] at hends
    obtain ⟨n, hn⟩ := hends
    rw [hnest.refersTo_eq_none] at hn
    cases hn

/-- Conversion ends with the answer that `levels` levels give, if they give one. Otherwise it goes
on for ever, which takes two array types that nest without end and never meet. So it always ends
where chains of components do, however classes and interfaces refer to each other. -/
theorem ends_iff (c : Catalog) (boxing : Bool) (a b : TypeHandle) :
    (∀ r, c.Ends (c.start boxing a b) r ↔ c.conversion? c.levels boxing a b = some r) ∧
    ((¬∃ r, c.Ends (c.start boxing a b) r) ↔
      ∃ x y, c.start boxing a b = .comparing x y ∧ c.NestApart x y) ∧
    (c.FiniteNesting → ∃ r, c.Ends (c.start boxing a b) r) := by
  refine ⟨fun r => ends_start_iff, not_ends_start_iff, fun hfin => ?_⟩
  exact ⟨_, ends_start_iff.mpr (conversion?_eq_converts hfin le_rfl)⟩

/-- Between the arrays of two classes that extend each other, conversion ends. -/
theorem ends_iff_circle :
    circle.catalog.FiniteNesting ∧
    ∃ r, circle.catalog.Ends (circle.catalog.start true ⟨102⟩ ⟨103⟩) r := by
  have hfin : circle.catalog.FiniteNesting := TypeTable.finiteNesting (by decide)
  obtain ⟨-, -, hends⟩ := ends_iff circle.catalog true ⟨102⟩ ⟨103⟩
  exact ⟨hfin, hends hfin⟩

/-- Two array types, each its own component. -/
def coils : TypeTable where
  types :=
    [ { handle := ⟨100⟩, name := "Left", shape := .array ⟨100⟩ },
      { handle := ⟨101⟩, name := "Right", shape := .array ⟨101⟩ } ]

/-- They are compared for ever, with boxing and without. -/
theorem not_ends_coils :
    (¬∃ r, coils.catalog.Ends (coils.catalog.start false ⟨100⟩ ⟨101⟩) r) ∧
    ¬∃ r, coils.catalog.Ends (coils.catalog.start true ⟨100⟩ ⟨101⟩) r := by
  constructor
  · rintro ⟨r, h⟩
    cases ends_start_iff.mp h
  · rintro ⟨r, h⟩
    cases ends_start_iff.mp h

end Catalog

end BestFit
