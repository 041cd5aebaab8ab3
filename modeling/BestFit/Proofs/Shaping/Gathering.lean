import BestFit.Proofs.Selection.Applicability
import BestFit.Proofs.Shaping.Acceptance

/-!
# Gathering of trailing arguments

What gathering does for a variadic constructor of a store (`runFrom_gather`): it leaves the
arguments as they are if the last one stands at the collecting parameter, and otherwise puts the
trailing ones into an array of the declared component, which they all conform to (`gather_eq_ok`).
-/
namespace BestFit

/-- Whether a last argument stands at a parameter that collects into arrays over a component:
null does, and an array of that very component. -/
def fillsOver {π : Type} (component : TypeHandle) : Option (Datum π) → Bool
  | some .null => true
  | some (.array x _) => x == component
  | _ => false

/-- Shaping of an argument list for a constructor: gathering first, then acceptance. -/
def TypeSource.shape {σ π : Type} (S : TypeSource σ) (args : List (Datum π)) (k : Ctor) :
    Failable σ ArgumentError (List (Datum π)) := do
  S.conform k (← S.gather k args)

namespace Store

variable {ω π : Type} {s s' : Store ω π} {k : Ctor} {last x : TypeHandle} {args l : List (Datum π)}

/-- The arguments need no gathering for a variadic constructor that collects into arrays over
a component: there is one for each parameter, and the last one fills its place. -/
def Filled (k : Ctor) (component : TypeHandle) (args : List (Datum π)) : Prop :=
  args.length = k.arity ∧ fillsOver component args.getLast? = true

instance (k : Ctor) (component : TypeHandle) (args : List (Datum π)) :
    Decidable (Filled k component args) := inferInstanceAs (Decidable (_ ∧ _))

/-- Nothing is to be gathered: the constructor is not variadic, or the last argument stands at the
collecting parameter. -/
def NeedsNoGathering (s : Store ω π) (k : Ctor) (args : List (Datum π)) : Prop :=
  k.isVariadic = true →
    ∃ last x, k.lastParam? = some last ∧ s.catalog.component? last = some x ∧ Filled k x args

/-! ## Conforming a whole list -/

theorem steady_conform (k : Ctor) (args : List (Datum π)) :
    Steady ((source : TypeSource (Store ω π)).conform k args) :=
  source.keeps_conform evolves_arrayOf k args

theorem acceptsAll_of_conform (hs : s.WellFormed)
    (h : (source.conform k args).runFrom s = (.ok l, s')) :
    args.length = k.arity ∧ s'.AcceptsAll k.params args l := by
  unfold TypeSource.conform at h
  split at h
  · next hlen => exact ⟨hlen, acceptsAll_of_acceptAll hs hlen.symm h⟩
  · cases h

theorem conform_of_conforms (h : List.Forall₂ s.Conforms k.params args) :
    (source.conform k args).runFrom s = (.ok args, s) := by
  unfold TypeSource.conform
  rw [if_pos (show args.length = k.arity from h.length_eq.symm)]
  exact acceptAll_of_conforms h 0

/-! ## The last argument -/

/-- The last argument is compared by type; array types are interned, so that is to compare
the components. All that happens to the store is that its type was asked for. -/
theorem WellFormed.run_fillsLast (hs : s.WellFormed) (hx : s.catalog.component? last = some x)
    (a : Datum π) :
    (source.fillsLast last (some a)).run s =
      (fillsOver x (some a), ((source.typeOf a).run s).2) := by
  cases a with
  | array y items =>
    show (((Store.arrayOf y).run s).1 == last, ((Store.arrayOf y).run s).2) =
      (y == x, ((Store.arrayOf y).run s).2)
    refine Prod.ext ?_ rfl
    rw [Bool.eq_iff_iff, beq_iff_eq, beq_iff_eq]
    obtain ⟨t, s', hrun, hsteps, ht⟩ := hs.run_arrayOf y
    constructor
    · intro heq
      obtain rfl : t = last := by rwa [hrun] at heq
      rcases ht with ht | ⟨rfl, -⟩
      · exact Option.some.inj (ht.symm.trans (hsteps.grows.component? hx))
      · exact absurd rfl (ne_of_component? hx (by decide))
    · rintro rfl
      rw [hs.run_arrayOf_of_component? hx]
  | _ => rfl

/-- What stands at the collecting parameter has its type stored. -/
theorem WellFormed.state_typeOf_of_fillsOver (hs : s.WellFormed)
    (hx : s.catalog.component? last = some x) {a : Datum π} (h : fillsOver x (some a) = true) :
    ((source.typeOf a).run s).2 = s := by
  cases a with
  | array y items =>
    obtain rfl := beq_iff_eq.mp h
    show ((Store.arrayOf y).run s).2 = s
    rw [hs.run_arrayOf_of_component? hx]
  | _ => rfl

/-- As many arguments as there are parameters, cut before the last one. -/
theorem exists_concat_of_count (hl : k.lastParam? = some last) (hcount : args.length = k.arity) :
    ∃ front a, args = front ++ [a] ∧ front.length = k.fixedParams.length := by
  rw [Ctor.arity, ← Ctor.fixedParams_append hl, List.length_append] at hcount
  rcases List.eq_nil_or_concat' args with rfl | ⟨front, a, rfl⟩
  · simp at hcount
  · exact ⟨front, a, rfl, by simpa using hcount⟩

/-- A list that needs no gathering, cut before its last argument. -/
theorem Filled.exists_concat (h : Filled k x args) (hl : k.lastParam? = some last) :
    ∃ a front, args = front ++ [a] ∧ fillsOver x (some a) = true ∧
      front.length = k.fixedParams.length := by
  obtain ⟨hcount, hfill⟩ := h
  obtain ⟨front, a, rfl, hfront⟩ := exists_concat_of_count hl hcount
  rw [List.getLast?_concat] at hfill
  exact ⟨a, front, rfl, hfill, hfront⟩

/-! ## Gathering -/

/-- The last of the arguments, gathered alone. -/
theorem gatherFrom_concat (front : List (Datum π)) (a : Datum π) :
    (source : TypeSource (Store ω π)).gatherFrom front.length x (front ++ [a]) = (do
      let b ← source.accept front.length x a
      return front ++ [.array x [b]]) := by
  have hlen : ¬(front ++ [a]).length < front.length := by simp
  unfold TypeSource.gatherFrom
  rw [if_neg hlen, List.drop_left, List.take_left]
  simp only [List.length_singleton, List.replicate_one, TypeSource.acceptAll_cons, bind_assoc]
  rfl

/-- The collecting parameter of a constructor that a store describes is an array type. -/
theorem WellFormed.exists_component (hs : s.WellFormed) (hk : s.Describes k)
    (hv : k.isVariadic = true) :
    ∃ last x, k.lastParam? = some last ∧ s.catalog.component? last = some x := by
  obtain ⟨e, he, rfl⟩ := Option.map_eq_some_iff.mp hk
  obtain ⟨x, hx⟩ := (hs.entries he).variadic hv
  obtain ⟨last, hlast, hx⟩ := Option.bind_eq_some_iff.mp hx
  exact ⟨last, x, hlast, hx⟩

/-- The trailing arguments all conform to the component that they are gathered over. -/
theorem gatherFrom_eq_ok (hs : s.WellFormed) {fixed : Nat}
    (h : (source.gatherFrom fixed x args).runFrom s = (.ok l, s')) :
    fixed ≤ args.length ∧ ∃ items, l = args.take fixed ++ [.array x items] ∧
      items.length = args.length - fixed ∧ ∀ b ∈ items, s'.Conforms x b := by
  unfold TypeSource.gatherFrom at h
  split at h
  · cases h
  · next hlen =>
    obtain ⟨items, s₁, hitems, h⟩ := Failable.runFrom_bind_eq_ok.mp h
    cases h
    have hacc := acceptsAll_of_acceptAll hs List.length_replicate hitems
    refine ⟨Nat.le_of_not_lt hlen, items, rfl, ?_, hacc.of_replicate⟩
    rw [hacc.length_eq, List.length_drop]

theorem gather_of_not_variadic (hv : k.isVariadic = false) (args : List (Datum π)) :
    (source : TypeSource (Store ω π)).gather k args = pure args := by
  simp [TypeSource.gather, hv]

section Variadic

variable (hs : s.WellFormed) (hv : k.isVariadic = true) (hl : k.lastParam? = some last)
  (hx : s.catalog.component? last = some x)
include hs hv hl hx

/-- Gathering for a variadic constructor: nothing, or from the collecting parameter on. To ask for
the type of the last argument first makes no difference. -/
theorem runFrom_gather (args : List (Datum π)) :
    (source.gather k args).runFrom s =
      if Filled k x args then (.ok args, s)
      else (source.gatherFrom k.fixedParams.length x args).runFrom s := by
  unfold TypeSource.gather
  simp only [hv, hl, Failable.runFrom_bind, Failable.runFrom_lift, TypeSource.run_view,
    source_catalog, hx]
  by_cases hlen : args.length = k.arity
  · obtain ⟨front, a, rfl, hfront⟩ := exists_concat_of_count hl hlen
    simp only [hlen, if_true, List.getLast?_concat, Failable.runFrom_bind, Failable.runFrom_lift,
      hs.run_fillsLast hx, Filled, true_and]
    by_cases hfill : fillsOver x (some a) = true
    · rw [if_pos hfill, if_pos hfill, hs.state_typeOf_of_fillsOver hx hfill, Failable.runFrom_pure]
    · rw [if_neg hfill, if_neg hfill, ← hfront, gatherFrom_concat, Failable.runFrom_bind,
        Failable.runFrom_bind, accept_again hs]
  · simp [hlen, Filled]

/-- Gathering that succeeds leaves the arguments as they are, or ends them with an array of
the declared component whose items conform to it. -/
theorem gather_eq_ok (h : (source.gather k args).runFrom s = (.ok l, s')) :
    (Filled k x args ∧ l = args) ∨
    (¬Filled k x args ∧ k.fixedParams.length ≤ args.length ∧ ∃ items,
      l = args.take k.fixedParams.length ++ [.array x items] ∧
      items.length = args.length - k.fixedParams.length ∧ ∀ b ∈ items, s'.Conforms x b) := by
  rw [runFrom_gather hs hv hl hx] at h
  by_cases hfill : Filled k x args
  · rw [if_pos hfill] at h
    cases h
    exact .inl ⟨hfill, rfl⟩
  · rw [if_neg hfill] at h
    exact .inr ⟨hfill, gatherFrom_eq_ok hs h⟩

end Variadic

/-- Where nothing is to be gathered, the arguments are returned as they are. -/
theorem NeedsNoGathering.gather (hs : s.WellFormed) (h : s.NeedsNoGathering k args) :
    (source.gather k args).runFrom s = (.ok args, s) := by
  cases hv : k.isVariadic with
  | false => rw [gather_of_not_variadic hv, Failable.runFrom_pure]
  | true =>
    obtain ⟨last, x, hl, hx, hfill⟩ := h hv
    rw [runFrom_gather hs hv hl hx, if_pos hfill]

theorem steady_gather (k : Ctor) (args : List (Datum π)) :
    Steady ((source : TypeSource (Store ω π)).gather k args) :=
  source.keeps_gather evolves_arrayOf k args

theorem steady_shape (args : List (Datum π)) (k : Ctor) :
    Steady ((source : TypeSource (Store ω π)).shape args k) :=
  (steady_gather k args).bind fun g => steady_conform k g

end Store

end BestFit
