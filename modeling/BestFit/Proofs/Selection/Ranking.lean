import BestFit.Proofs.Selection.Specificity

/-!
# Specificity as an order

Which of two parameter lists asks for more is told place by place, so specificity orders lists
as far as conversion orders types. It is irreflexive and asymmetric whatever the catalog, and
without boxing it is transitive. With boxing it is transitive but for lists that take a detour
at some place (`Reachable.rank_lawful`); the built-in types are enough to meet one
(`not_ordersStrictly_number`).
-/
namespace BestFit

namespace Catalog

variable {c : Catalog} {boxing : Bool} {as bs es : List TypeHandle}

/-- Some place of three lists takes a detour. -/
def DetoursSomewhere : List TypeHandle → List TypeHandle → List TypeHandle → Prop
  | a :: as, b :: bs, e :: es => Detour a b e ∨ DetoursSomewhere as bs es
  | _, _, _ => False

/-- Specificity as a strict order of lists of declared types, of one length each time, with
ranking as its comparison. -/
def OrdersStrictly (c : Catalog) (boxing : Bool) : Prop :=
  ∀ as bs es : List TypeHandle, (∀ t ∈ as ++ bs ++ es, c.contains t = true) →
    as.length = bs.length → bs.length = es.length →
    c.isNarrower boxing as as = false ∧
    ¬(c.isNarrower boxing as bs = true ∧ c.isNarrower boxing bs as = true) ∧
    c.rank boxing bs as = (c.rank boxing as bs).swap ∧
    (c.isNarrower boxing as bs = true → c.isNarrower boxing bs es = true →
      c.isNarrower boxing as es = true)

/-! ## Any catalog -/

theorem isNarrower_asymm (h : c.isNarrower boxing as bs = true) :
    c.isNarrower boxing bs as = false := by
  rw [← Bool.not_eq_true, isNarrower_iff]
  rw [isNarrower_iff] at h
  intro hback
  rw [h.1] at hback
  cases hback.2

/-- The other way round, the comparison is turned round. -/
theorem rank_swap (as bs : List TypeHandle) :
    c.rank boxing bs as = (c.rank boxing as bs).swap := by
  unfold rank
  cases hab : c.isNarrower boxing as bs with
  | true => simp [isNarrower_asymm hab]
  | false => cases hba : c.isNarrower boxing bs as <;> simp

/-! ## Lawful hierarchies -/

theorem convertsAll_trans_iff (hc : c.Lawful) (hab : c.convertsAll boxing as bs = true)
    (hbe : c.convertsAll boxing bs es = true) :
    c.convertsAll boxing as es = true ↔ ¬DetoursSomewhere as bs es := by
  induction as generalizing bs es with
  | nil =>
    obtain rfl := List.eq_nil_of_length_eq_zero (Catalog.convertsAll_length hab).symm
    obtain rfl := List.eq_nil_of_length_eq_zero (Catalog.convertsAll_length hbe).symm
    simp [DetoursSomewhere]
  | cons a as ih =>
    obtain ⟨b, bs, rfl⟩ := List.exists_cons_of_length_eq_add_one (Catalog.convertsAll_length hab).symm
    obtain ⟨e, es, rfl⟩ := List.exists_cons_of_length_eq_add_one (Catalog.convertsAll_length hbe).symm
    simp only [convertsAll_cons, Bool.and_eq_true, converts_iff hc.finite] at hab hbe ⊢
    rw [DetoursSomewhere, not_or, hab.1.trans_iff hc hbe.1, ih hab.2 hbe.2]

theorem convertsAll_back_of_circle (hc : c.Lawful) (hab : c.convertsAll boxing as bs = true)
    (hbe : c.convertsAll boxing bs es = true) (hea : c.convertsAll boxing es as = true) :
    c.convertsAll boxing bs as = true := by
  induction as generalizing bs es with
  | nil =>
    obtain rfl := List.eq_nil_of_length_eq_zero (Catalog.convertsAll_length hab).symm
    rfl
  | cons a as ih =>
    obtain ⟨b, bs, rfl⟩ := List.exists_cons_of_length_eq_add_one (Catalog.convertsAll_length hab).symm
    obtain ⟨e, es, rfl⟩ := List.exists_cons_of_length_eq_add_one (Catalog.convertsAll_length hbe).symm
    simp only [convertsAll_cons, Bool.and_eq_true, converts_iff hc.finite] at hab hbe hea ⊢
    exact ⟨hab.1.back_of_circle hc hbe.1 hea.1, ih hab.2 hbe.2 hea.2⟩

/-- Specificity is transitive but for detours. -/
theorem isNarrower_trans_iff (hc : c.Lawful) (hab : c.isNarrower boxing as bs = true)
    (hbe : c.isNarrower boxing bs es = true) :
    c.isNarrower boxing as es = true ↔ ¬DetoursSomewhere as bs es := by
  obtain ⟨hab, hba⟩ := isNarrower_iff.mp hab
  obtain ⟨hbe, -⟩ := isNarrower_iff.mp hbe
  rw [isNarrower_iff, ← convertsAll_trans_iff hc hab hbe]
  constructor
  · intro h
    exact h.1
  · intro hae
    refine ⟨hae, ?_⟩
    -- a way back would close a circle, and circles lead back every step
    by_contra hea
    rw [Bool.not_eq_false] at hea
    rw [convertsAll_back_of_circle hc hab hbe hea] at hba
    cases hba

theorem not_detoursSomewhere (hc : c.Lawful) (hbe : c.convertsAll false bs es = true) :
    ¬DetoursSomewhere as bs es := by
  induction as generalizing bs es with
  | nil => simp [DetoursSomewhere]
  | cons a as ih =>
    cases bs with
    | nil => simp [DetoursSomewhere]
    | cons b bs =>
      obtain ⟨e, es, rfl⟩ := List.exists_cons_of_length_eq_add_one (Catalog.convertsAll_length hbe).symm
      simp only [convertsAll_cons, Bool.and_eq_true, converts_iff hc.finite] at hbe
      intro h
      rcases h with h | h
      · cases h.boxing_eq_true hc hbe.1
      · exact ih hbe.2 h

end Catalog

namespace Store

variable {ω π : Type} {s : Store ω π}

/-- In a reachable store, specificity without boxing orders lists of declared types strictly.
With boxing it is irreflexive and asymmetric as well, ranking compares by it, and it is
transitive exactly where no place of the lists takes a detour. -/
theorem Reachable.rank_lawful (h : s.Reachable) :
    s.catalog.OrdersStrictly false ∧
    ∀ (boxing : Bool) (as bs es : List TypeHandle),
      s.catalog.isNarrower boxing as as = false ∧
      ¬(s.catalog.isNarrower boxing as bs = true ∧ s.catalog.isNarrower boxing bs as = true) ∧
      s.catalog.rank boxing bs as = (s.catalog.rank boxing as bs).swap ∧
      (s.catalog.isNarrower boxing as bs = true → s.catalog.isNarrower boxing bs es = true →
        (s.catalog.isNarrower boxing as es = true ↔ ¬Catalog.DetoursSomewhere as bs es)) := by
  have hc := h.wellFormed.lawful
  have hasymm : ∀ boxing as bs, ¬(s.catalog.isNarrower boxing as bs = true ∧
      s.catalog.isNarrower boxing bs as = true) := by
    intro boxing as bs hboth
    rw [Catalog.isNarrower_asymm hboth.1] at hboth
    cases hboth.2
  constructor
  · intro as bs es _ _ _
    refine ⟨Catalog.isNarrower_irrefl as, hasymm false as bs, Catalog.rank_swap as bs, ?_⟩
    intro hab hbe
    have hnot : ¬Catalog.DetoursSomewhere as bs es :=
      Catalog.not_detoursSomewhere hc (Catalog.isNarrower_iff.mp hbe).1
    exact (Catalog.isNarrower_trans_iff hc hab hbe).mpr hnot
  · intro boxing as bs es
    refine ⟨Catalog.isNarrower_irrefl as, hasymm boxing as bs, Catalog.rank_swap as bs, ?_⟩
    intro hab hbe
    exact Catalog.isNarrower_trans_iff hc hab hbe

/-- A byte and a dog ask for more than an integer and an animal, and so for more than a long
and an object. With boxing, a character asks for more than an integer and an integer for more
than a number, and that is a detour. -/
theorem rank_lawful_kennels :
    kennels.Reachable ∧
    kennels.catalog.isNarrower false [.byte, ⟨101⟩] [.int, ⟨100⟩] = true ∧
    kennels.catalog.isNarrower false [.int, ⟨100⟩] [.long, .object] = true ∧
    kennels.catalog.isNarrower false [.byte, ⟨101⟩] [.long, .object] = true ∧
    kennels.catalog.isNarrower true [.char] [.int] = true ∧
    kennels.catalog.isNarrower true [.int] [.number] = true ∧
    Catalog.DetoursSomewhere [.char] [.int] [.number] := by
  have hreach := kennels_ownReachable.reachable
  obtain ⟨hstrict, hlaws⟩ := hreach.rank_lawful
  obtain ⟨-, -, -, htrans⟩ := hstrict [.byte, ⟨101⟩] [.int, ⟨100⟩] [.long, .object]
    (by decide) rfl rfl
  have hdog : kennels.catalog.isNarrower false [.byte, ⟨101⟩] [.int, ⟨100⟩] = true := by decide
  have hanimal : kennels.catalog.isNarrower false [.int, ⟨100⟩] [.long, .object] = true := by
    decide
  obtain ⟨-, -, -, hiff⟩ := hlaws true [.char] [.int] [.number]
  have hchar : kennels.catalog.isNarrower true [.char] [.int] = true := by decide
  have hint : kennels.catalog.isNarrower true [.int] [.number] = true := by decide
  have hnot : kennels.catalog.isNarrower true [.char] [.number] ≠ true := by decide
  have hdetour := not_not.mp (mt (hiff hchar hint).mpr hnot)
  exact ⟨hreach, hdog, hanimal, htrans hdog hanimal, hchar, hint, hdetour⟩

/-- A character asks for more than an integer and an integer for more than a number, but a
character, boxed, is no number. -/
theorem not_ordersStrictly_number :
    ({ serial := 0, world := [] } : Store Journal Nat).Reachable ∧
    ¬({ serial := 0, world := [] } : Store Journal Nat).catalog.OrdersStrictly true := by
  refine ⟨.initial 0 [], ?_⟩
  intro h
  obtain ⟨-, -, -, htrans⟩ := h [.char] [.int] [.number] (by decide) rfl rfl
  have hnarrower := htrans (by decide) (by decide)
  revert hnarrower
  decide

end Store

end BestFit
