import BestFit.Proofs.Shaping.Types

/-!
# Acceptance of data on a store

`Conforms` says what a constructor body may rely on at a parameter. What `accept` lets pass
conforms (`accepts_of_accept`), and a list that `acceptAll` lets pass conforms item by item
(`acceptsAll_of_acceptAll`), whatever the caller claims about the types.
-/
namespace BestFit

namespace TypeSource

variable {σ π : Type} (S : TypeSource σ) (s : σ) {t : TypeHandle} {a : Datum π}

/-- Acceptance at a primitive type: what widens to it, widened. -/
theorem runFrom_accept_primitive (index : Nat) (a : Datum π) {p : Primitive}
    (ht : Primitive.ofHandle? t = some p) :
    (S.accept index t a).runFrom s =
      match a.widenTo p with
      | some b => (.ok b, s)
      | none =>
          if a.isNull then (.error (.nullAtPrimitive index ((S.catalog s).nameOf t)), s)
          else
            let r := (S.typeOf a).run s
            let c := S.catalog r.2
            (.error (.unconvertible index (c.nameOf t) (c.nameOf r.1)), r.2) := by
  unfold accept
  simp only [ht]
  cases hn : a.isNull with
  | true =>
    cases a <;> cases hn
    rfl
  | false =>
    cases hw : a.widenTo p with
    | some b => simp
    | none => simp [Failable.runFrom_bind]

/-- Acceptance at a reference type: null, and what has a type that converts to it. -/
theorem runFrom_accept_reference (index : Nat) (a : Datum π)
    (ht : Primitive.ofHandle? t = none) :
    (S.accept index t a).runFrom s =
      if a.isNull then (.ok a, s)
      else
        let r := (S.typeOf a).run s
        let c := S.catalog r.2
        (if c.converts false r.1 t then .ok a
          else .error (.unconvertible index (c.nameOf t) (c.nameOf r.1)), r.2) := by
  unfold accept
  simp only [ht]
  cases hn : a.isNull with
  | true => simp
  | false =>
    simp only [Bool.false_eq_true, if_false, Failable.runFrom_bind, Failable.runFrom_lift,
      run_view]
    split <;> rfl

end TypeSource

namespace Store

variable {ω π : Type} {s s' : Store ω π} {t u : TypeHandle} {a b : Datum π}

/-! ## Conformance -/

/-- What may be relied on at a parameter of type `t`: a primitive parameter holds a datum of
that very type; a reference parameter holds null, or a datum whose type converts to the
parameter's without boxing. -/
def Conforms (s : Store ω π) (t : TypeHandle) (a : Datum π) : Prop :=
  match Primitive.ofHandle? t with
  | some p => a.primitive? = some p
  | none => a = .null ∨
      ∃ u, (source.typeOf a).run s = (u, s) ∧ s.catalog.converts false u t = true

theorem conforms_primitive {p : Primitive} (ht : Primitive.ofHandle? t = some p) :
    s.Conforms t a ↔ a.primitive? = some p := by
  simp only [Conforms, ht]

theorem conforms_reference (hs : s.WellFormed) (ht : Primitive.ofHandle? t = none) :
    s.Conforms t a ↔ a = .null ∨ ∃ u, s.HasType a u ∧ s.catalog.converts false u t = true := by
  simp only [Conforms, ht]
  refine or_congr_right (exists_congr fun u => and_congr_left fun hu => ?_)
  refine ⟨fun hrun => ?_, fun ha => ha.run hs⟩
  obtain ⟨u', s', hrun', -, hans⟩ := hs.run_typeOf a
  rw [hrun] at hrun'
  cases hrun'
  rcases hans with ha | rfl
  · exact ha
  · exact absurd rfl (hs.ne_absent_of_converts hu)

/-- What conforms goes on conforming. -/
theorem Conforms.mono (hs : s.WellFormed) (h : s.Steps s') (ha : s.Conforms t a) :
    s'.Conforms t a := by
  have hs' := h.wellFormed hs
  cases ht : Primitive.ofHandle? t with
  | some p =>
    rw [conforms_primitive ht] at ha ⊢
    exact ha
  | none =>
    rw [conforms_reference hs ht] at ha
    rw [conforms_reference hs' ht]
    rcases ha with ha | ⟨u, hu, hconv⟩
    · exact .inl ha
    · exact .inr ⟨u, hu.mono h.grows, h.grows.converts hs hs' hconv⟩

/-- A datum `a` given where `t` is expected has become `b`: one that conforms, and at a
reference parameter `a` itself. -/
structure Accepts (s : Store ω π) (t : TypeHandle) (a b : Datum π) : Prop where
  conforms : s.Conforms t b
  same : Primitive.ofHandle? t = none → b = a

/-- Data given at parameters, with what they have become. -/
inductive AcceptsAll (s : Store ω π) :
    List TypeHandle → List (Datum π) → List (Datum π) → Prop
  | nil : AcceptsAll s [] [] []
  | cons {t : TypeHandle} {a b : Datum π} {ts : List TypeHandle} {as bs : List (Datum π)}
      (head : s.Accepts t a b) (tail : AcceptsAll s ts as bs) :
      AcceptsAll s (t :: ts) (a :: as) (b :: bs)

theorem Accepts.mono (hs : s.WellFormed) (h : s.Steps s') (ha : s.Accepts t a b) :
    s'.Accepts t a b := ⟨ha.conforms.mono hs h, ha.same⟩

namespace AcceptsAll

variable {ts : List TypeHandle} {as bs : List (Datum π)}

theorem mono (hs : s.WellFormed) (hsteps : s.Steps s') (h : s.AcceptsAll ts as bs) :
    s'.AcceptsAll ts as bs := by
  induction h with
  | nil => exact .nil
  | cons head _ ih => exact .cons (head.mono hs hsteps) ih

theorem conforms (h : s.AcceptsAll ts as bs) : List.Forall₂ s.Conforms ts bs := by
  induction h with
  | nil => exact .nil
  | cons head _ ih => exact .cons head.conforms ih

theorem length_eq (h : s.AcceptsAll ts as bs) : bs.length = as.length := by
  induction h with
  | nil => rfl
  | cons _ _ ih => simp [ih]

/-- The last datum, accepted at the last parameter. -/
theorem getLast? {t : TypeHandle} {a : Datum π} (h : s.AcceptsAll (ts ++ [t]) (as ++ [a]) bs)
    (hlen : ts.length = as.length) : ∃ b, bs.getLast? = some b ∧ s.Accepts t a b := by
  induction ts generalizing as bs with
  | nil =>
    obtain rfl := List.eq_nil_of_length_eq_zero hlen.symm
    cases h with
    | cons head tail =>
      cases tail
      exact ⟨_, rfl, head⟩
  | cons u ts ih =>
    obtain ⟨a', as, rfl⟩ := List.exists_cons_of_length_eq_add_one hlen.symm
    cases h with
    | cons head tail =>
      obtain ⟨b, hb, hacc⟩ := ih tail (Nat.succ.inj hlen)
      exact ⟨b, by rw [List.getLast?_cons, hb]; rfl, hacc⟩

/-- Data accepted at one and the same type. -/
theorem of_replicate {n : Nat} (h : s.AcceptsAll (List.replicate n t) as bs) :
    ∀ b ∈ bs, s.Conforms t b := by
  induction n generalizing as bs with
  | zero =>
    cases h
    simp
  | succ n ih =>
    rw [List.replicate_succ] at h
    cases h with
    | cons head tail => exact List.forall_mem_cons.mpr ⟨head.conforms, ih tail⟩

end AcceptsAll

/-! ## One datum -/

theorem steady_accept (index : Nat) (t : TypeHandle) (a : Datum π) :
    Steady ((source : TypeSource (Store ω π)).accept index t a) :=
  source.keeps_accept evolves_arrayOf index t a

/-- Acceptance does nothing to the store but to ask for the type of the datum. -/
theorem accept_state (s : Store ω π) (index : Nat) (t : TypeHandle) (a : Datum π) :
    ((source.accept index t a).runFrom s).2 = ((source.typeOf a).run s).2 := by
  cases ht : Primitive.ofHandle? t with
  | some p =>
    rw [source.runFrom_accept_primitive s index a ht]
    cases hw : a.widenTo p with
    | some b =>
      -- what widens is unboxed, and its type need not be looked up
      obtain ⟨q, hq, -⟩ := Datum.widenTo_isSome_iff.mp (Option.isSome_of_eq_some hw)
      obtain ⟨w, hw⟩ := exists_wrapper_of_primitive? hq
      rw [typeOf_of_primitive? source hq hw]
      rfl
    | none => cases a <;> rfl
  | none =>
    rw [source.runFrom_accept_reference s index a ht]
    cases a <;> rfl

/-- It makes no difference if the type of the datum was asked for right before. -/
theorem accept_again (hs : s.WellFormed) (index : Nat) (t : TypeHandle) (a : Datum π) :
    (source.accept index t a).runFrom ((source.typeOf a).run s).2 =
      (source.accept index t a).runFrom s := by
  cases a with
  | array x items =>
    have hagain := hs.run_typeOf_again (Datum.array x items)
    cases ht : Primitive.ofHandle? t with
    | some p =>
      rw [source.runFrom_accept_primitive _ index _ ht,
        source.runFrom_accept_primitive _ index _ ht, hagain]
      rfl
    | none =>
      rw [source.runFrom_accept_reference _ index _ ht,
        source.runFrom_accept_reference _ index _ ht, hagain]
      rfl
  | _ => rfl

/-- What is accepted conforms. -/
theorem accepts_of_accept (hs : s.WellFormed) {index : Nat}
    (h : (source.accept index t a).runFrom s = (.ok b, s')) : s'.Accepts t a b := by
  cases ht : Primitive.ofHandle? t with
  | some p =>
    rw [source.runFrom_accept_primitive s index a ht] at h
    refine ⟨?_, fun hne => by rw [ht] at hne; cases hne⟩
    rw [conforms_primitive ht]
    cases hw : a.widenTo p with
    | some b' =>
      rw [hw] at h
      cases h
      exact Datum.primitive?_of_widenTo hw
    | none =>
      simp only [hw] at h
      split at h <;> cases h
  | none =>
    rw [source.runFrom_accept_reference s index a ht] at h
    by_cases hn : a.isNull = true
    · rw [if_pos hn] at h
      cases h
      refine ⟨?_, fun _ => rfl⟩
      simp only [Conforms, ht]
      cases a <;> first | exact .inl rfl | cases hn
    · obtain ⟨u, s₁, hrun, hsteps, hans⟩ := hs.run_typeOf a
      have hs₁ := hsteps.wellFormed hs
      rw [if_neg hn, hrun] at h
      change ((if s₁.catalog.converts false u t then .ok a else .error _ : Except _ _), s₁) =
        (.ok b, s') at h
      by_cases hconv : s₁.catalog.converts false u t = true
      · rw [if_pos hconv] at h
        cases h
        have ha := hans.resolve_right (hs₁.ne_absent_of_converts hconv)
        exact ⟨(conforms_reference hs₁ ht).mpr (.inr ⟨u, ha, hconv⟩), fun _ => rfl⟩
      · rw [if_neg hconv] at h
        cases h

/-- What conforms is accepted as it is, and nothing is asked of the store. -/
theorem Conforms.accept (ha : s.Conforms t a) (index : Nat) :
    (source.accept index t a).runFrom s = (.ok a, s) := by
  cases ht : Primitive.ofHandle? t with
  | some p =>
    rw [source.runFrom_accept_primitive s index a ht,
      Datum.widenTo_of_primitive? ((conforms_primitive ht).mp ha)]
  | none =>
    rw [source.runFrom_accept_reference s index a ht]
    simp only [Conforms, ht] at ha
    rcases ha with rfl | ⟨u, hrun, hconv⟩
    · rfl
    · by_cases hn : a.isNull = true
      · rw [if_pos hn]
      · rw [if_neg hn, hrun]
        exact Prod.ext (if_pos hconv) rfl

/-! ## A list of data -/

theorem acceptAll_of_conforms {ts : List TypeHandle} {as : List (Datum π)}
    (h : List.Forall₂ s.Conforms ts as) (index : Nat) :
    (source.acceptAll index ts as).runFrom s = (.ok as, s) := by
  induction h generalizing index with
  | nil => rfl
  | @cons t a ts as ha _ ih =>
    rw [TypeSource.acceptAll_cons]
    refine Failable.runFrom_bind_eq_ok.mpr ⟨a, s, ha.accept index, ?_⟩
    exact Failable.runFrom_bind_eq_ok.mpr ⟨as, s, ih (index + 1), rfl⟩

theorem steady_acceptAll (index : Nat) (ts : List TypeHandle) (as : List (Datum π)) :
    Steady ((source : TypeSource (Store ω π)).acceptAll index ts as) :=
  source.keeps_acceptAll evolves_arrayOf index ts as

/-- Every datum of an accepted list conforms to its parameter. -/
theorem acceptsAll_of_acceptAll (hs : s.WellFormed) {index : Nat} {ts : List TypeHandle}
    {as bs : List (Datum π)} (hlen : ts.length = as.length)
    (h : (source.acceptAll index ts as).runFrom s = (.ok bs, s')) : s'.AcceptsAll ts as bs := by
  induction ts generalizing index as bs s with
  | nil =>
    obtain rfl := List.eq_nil_of_length_eq_zero hlen.symm
    cases h
    exact .nil
  | cons t ts ih =>
    obtain ⟨a, as, rfl⟩ := List.exists_cons_of_length_eq_add_one hlen.symm
    rw [TypeSource.acceptAll_cons] at h
    obtain ⟨b, s₁, hb, h⟩ := Failable.runFrom_bind_eq_ok.mp h
    obtain ⟨bs', s₂, hbs, h⟩ := Failable.runFrom_bind_eq_ok.mp h
    cases h
    have hs₁ := ((steady_accept index t a).steps hs hb).wellFormed hs
    have hsteps := (steady_acceptAll (index + 1) ts as).steps hs₁ hbs
    exact .cons ((accepts_of_accept hs hb).mono hs₁ hsteps.steps) (ih hs₁ (Nat.succ.inj hlen) hbs)

end Store

end BestFit
