import BestFit.Proofs.Shaping.Accord

/-!
# Trailing arguments

What gathering makes of every argument list of a variadic constructor (`Gathered`): the list as it
is, or the leading arguments and one array of the trailing ones, each accepted at the component, or
the error of the first that is not. The types of data are asked for as they come, so each is judged
on a store of its own (`judge`); for data of declared types that makes no difference
(`WellFormed.takesAt_iff`). Main statement: `Reachable.gathers_trailing`.
-/
namespace BestFit

/-- The place that an error is about. -/
def ArgumentError.place? : ArgumentError → Option Nat
  | nullAtPrimitive index _ | unconvertible index _ _ => some index
  | wrongCount .. | tooFew .. | notAnArray _ => none

namespace Store

variable {ω π : Type} {s s' : Store ω π} {k : Ctor} {last t x : TypeHandle} {a b : Datum π}
  {args as bs items : List (Datum π)} {ts : List TypeHandle}

/-! ## One datum -/

/-- What a datum becomes where a type is expected: a primitive type has it widened, and a reference
type takes it as it is. -/
def Becomes (t : TypeHandle) (a b : Datum π) : Prop :=
  match Primitive.ofHandle? t with
  | some p => a.widenTo p = some b
  | none => b = a

/-- The error of a datum that is not accepted. Null apart, its type is asked for and named. -/
def refusal (s : Store ω π) (index : Nat) (t : TypeHandle) (a : Datum π) : ArgumentError :=
  let r := (source.typeOf a).run s
  if a.isNull then .nullAtPrimitive index (s.catalog.nameOf t)
  else .unconvertible index (r.2.catalog.nameOf t) (r.2.catalog.nameOf r.1)

theorem becomes_primitive {p : Primitive} (ht : Primitive.ofHandle? t = some p) :
    Becomes t a b ↔ a.widenTo p = some b := by
  simp only [Becomes, ht]

theorem becomes_reference (ht : Primitive.ofHandle? t = none) : Becomes t a b ↔ b = a := by
  simp only [Becomes, ht]

theorem place?_refusal (s : Store ω π) (index : Nat) (t : TypeHandle) (a : Datum π) :
    (s.refusal index t a).place? = some index := by
  unfold refusal
  dsimp only
  split <;> rfl

/-- A datum that suits is accepted, and its type was asked for. -/
theorem Suits.accept (h : s.Suits t a) (index : Nat) : ∃ b, Becomes t a b ∧
    (source.accept index t a).runFrom s = (.ok b, ((source.typeOf a).run s).2) := by
  have hstate := s.accept_state index t a
  cases ht : Primitive.ofHandle? t with
  | some p =>
    obtain ⟨b, hb⟩ := Option.isSome_iff_exists.mp ((suits_primitive ht).mp h)
    rw [source.runFrom_accept_primitive s index a ht, hb] at hstate ⊢
    exact ⟨b, (becomes_primitive ht).mpr hb, Prod.ext rfl hstate⟩
  | none =>
    refine ⟨a, (becomes_reference ht).mpr rfl, Prod.ext ?_ hstate⟩
    rw [source.runFrom_accept_reference s index a ht]
    by_cases hn : a.isNull = true
    · rw [if_pos hn]
    · rw [if_neg hn]
      exact if_pos (((suits_reference ht).mp h).resolve_left hn)

/-- A datum that does not suit is refused, and its type was asked for. -/
theorem accept_of_not_suits (h : ¬s.Suits t a) (index : Nat) :
    (source.accept index t a).runFrom s =
      (.error (s.refusal index t a), ((source.typeOf a).run s).2) := by
  have hstate := s.accept_state index t a
  refine Prod.ext ?_ hstate
  unfold refusal
  cases ht : Primitive.ofHandle? t with
  | some p =>
    rw [suits_primitive ht, Option.isSome_iff_ne_none, not_not] at h
    rw [source.runFrom_accept_primitive s index a ht, h]
    dsimp only
    split <;> rfl
  | none =>
    rw [suits_reference ht, not_or] at h
    rw [source.runFrom_accept_reference s index a ht, if_neg h.1, if_neg h.1]
    exact if_neg h.2

/-! ## A list of data -/

/-- The store on which the datum at a place of a list is judged: the types of those before it have
been asked for. -/
def judge (s : Store ω π) (as : List (Datum π)) (i : Nat) : Store ω π :=
  ((source.typesOf (as.take i)).run s).2

/-- The datum at a place, if there is one, suits the type there when its turn comes. -/
def SuitsAt (s : Store ω π) (ts : List TypeHandle) (as : List (Datum π)) (i : Nat) : Prop :=
  ∀ t a, ts[i]? = some t → as[i]? = some a → (s.judge as i).Suits t a

/-- The first datum that does not suit. -/
structure FirstRefused (s : Store ω π) (ts : List TypeHandle) (as : List (Datum π)) (i : Nat)
    (t : TypeHandle) (a : Datum π) : Prop where
  type : ts[i]? = some t
  datum : as[i]? = some a
  refused : ¬(s.judge as i).Suits t a
  earlier : ∀ j < i, s.SuitsAt ts as j

/-- What becomes of data that are to be accepted: all of them suit, or the first that does not is the
error. -/
def Judged (s : Store ω π) (index : Nat) (ts : List TypeHandle) (as : List (Datum π)) :
    Except ArgumentError (List (Datum π)) → Prop
  | .ok bs => (∀ i, s.SuitsAt ts as i) ∧
      List.Forall₂ (fun ta b => Becomes ta.1 ta.2 b) (ts.zip as) bs
  | .error e => ∃ i t a, s.FirstRefused ts as i t a ∧ e = (s.judge as i).refusal (index + i) t a

theorem suitsAt_cons (h : s.Suits t a) {i : Nat}
    (hrest : ∀ j, i = j + 1 → ((source.typeOf a).run s).2.SuitsAt ts as j) :
    s.SuitsAt (t :: ts) (a :: as) i := by
  cases i with
  | zero =>
    intro t' a' ht ha
    obtain rfl := Option.some.inj ht
    obtain rfl := Option.some.inj ha
    exact h
  | succ i => exact hrest i rfl

theorem FirstRefused.cons {i : Nat} {u : TypeHandle} {b : Datum π} (h : s.Suits t a)
    (hfirst : ((source.typeOf a).run s).2.FirstRefused ts as i u b) :
    s.FirstRefused (t :: ts) (a :: as) (i + 1) u b where
  type := hfirst.type
  datum := hfirst.datum
  refused := hfirst.refused
  earlier j hj := suitsAt_cons h fun l hl => hfirst.earlier l (by omega)

/-- What acceptance of a list does, by induction on the list: the rest is judged on the store that
the first datum leaves behind. -/
theorem judged_acceptAll (s : Store ω π) (index : Nat) (hlen : ts.length = as.length) :
    s.Judged index ts as ((source.acceptAll index ts as).runFrom s).1 := by
  induction ts generalizing s index as with
  | nil =>
    obtain rfl := List.eq_nil_of_length_eq_zero hlen.symm
    exact ⟨fun i t a ht => (by cases ht), .nil⟩
  | cons t ts ih =>
    obtain ⟨a, as, rfl⟩ := List.exists_cons_of_length_eq_add_one hlen.symm
    rw [TypeSource.acceptAll_cons, Failable.runFrom_bind]
    by_cases hsuits : s.Suits t a
    · obtain ⟨b, hb, hrun⟩ := hsuits.accept index
      have hrest := ih ((source.typeOf a).run s).2 (index + 1) (Nat.succ.inj hlen)
      rw [hrun]
      dsimp only
      rw [Failable.runFrom_bind]
      generalize (source.acceptAll (index + 1) ts as).runFrom ((source.typeOf a).run s).2 = r
        at hrest
      obtain ⟨r | bs, s'⟩ := r
      · obtain ⟨i, u, c, hfirst, hr⟩ := hrest
        refine ⟨i + 1, u, c, hfirst.cons hsuits, ?_⟩
        rw [← Nat.add_assoc, Nat.add_right_comm]
        exact hr
      · exact ⟨fun i => suitsAt_cons hsuits fun j _ => hrest.1 j, .cons hb hrest.2⟩
    · rw [accept_of_not_suits hsuits index]
      exact ⟨0, t, a, ⟨rfl, rfl, hsuits, fun j hj => absurd hj (Nat.not_lt_zero j)⟩, rfl⟩

theorem WellFormed.steps_judge (hs : s.WellFormed) (as : List (Datum π)) (i : Nat) :
    s.OwnSteps (s.judge as i) := by
  obtain ⟨ts, s', hrun, hsteps, -⟩ := hs.run_typesOf (as.take i)
  rw [judge, hrun]
  exact hsteps

/-! ## What is gathered -/

/-- The arguments from the collecting parameter on. -/
def trailing (k : Ctor) (args : List (Datum π)) : List (Datum π) := args.drop (k.arity - 1)

/-- The datum at a place, if there is one, suits a type when its turn comes. -/
def TakesAt (s : Store ω π) (x : TypeHandle) (as : List (Datum π)) (i : Nat) : Prop :=
  ∀ a ∈ as[i]?, (s.judge as i).Suits x a

/-- What gathering makes of arguments, for a constructor that collects into arrays over `x`. -/
inductive Gathered (s : Store ω π) (k : Ctor) (x : TypeHandle) (args : List (Datum π)) :
    Except ArgumentError (List (Datum π)) → Prop
  | kept (h : Filled k x args) : Gathered s k x args (.ok args)
  | tooFew (h : args.length < k.arity - 1) :
      Gathered s k x args (.error (.tooFew (k.arity - 1) args.length))
  | packed {items : List (Datum π)} (h : ¬Filled k x args) (hlen : k.arity - 1 ≤ args.length)
      (htakes : ∀ i, s.TakesAt x (trailing k args) i)
      (hitems : List.Forall₂ (Becomes x) (trailing k args) items) :
      Gathered s k x args (.ok (args.take (k.arity - 1) ++ [.array x items]))
  | refused {i : Nat} {a : Datum π} (h : ¬Filled k x args) (ha : (trailing k args)[i]? = some a)
      (hrefused : ¬s.TakesAt x (trailing k args) i)
      (hearlier : ∀ j < i, s.TakesAt x (trailing k args) j) :
      Gathered s k x args
        (.error ((s.judge (trailing k args) i).refusal (k.arity - 1 + i) x a))

theorem suitsAt_replicate {i : Nat} :
    s.SuitsAt (List.replicate as.length x) as i ↔ s.TakesAt x as i := by
  unfold SuitsAt TakesAt
  constructor
  · intro h a ha
    obtain ⟨hi, -⟩ := List.getElem?_eq_some_iff.mp ha
    exact h x a (by rw [List.getElem?_replicate, if_pos hi]) ha
  · intro h t a ht ha
    obtain rfl := List.eq_of_mem_replicate (List.mem_of_getElem? ht)
    exact h a ha

theorem becomes_replicate :
    List.Forall₂ (fun ta b => Becomes ta.1 ta.2 b) ((List.replicate as.length x).zip as) bs ↔
      List.Forall₂ (Becomes x) as bs := by
  rw [← List.map_const', ← List.map_prod_right_eq_zip, List.forall₂_map_left_iff]

/-- For data of declared types it makes no difference whose turn it is. -/
theorem WellFormed.takesAt_iff (hs : s.WellFormed) (hx : s.catalog.contains x = true)
    (has : ∀ a ∈ as, s.Familiar a) (i : Nat) :
    s.TakesAt x as i ↔ ∀ a ∈ as[i]?, s.Suits x a := by
  have hsteps := hs.steps_judge as i
  refine forall₂_congr fun a ha => ?_
  exact hsteps.grows.suits_eq hs (hsteps.wellFormed hs) (has a (List.mem_of_getElem? ha)) hx

theorem arity_pos (hl : k.lastParam? = some last) : 0 < k.arity := by
  rw [Ctor.arity, ← Ctor.fixedParams_append hl]
  simp

/-- What was gathered needs no further gathering. -/
theorem Gathered.filled (hl : k.lastParam? = some last) {l : List (Datum π)}
    (h : s.Gathered k x args (.ok l)) : Filled k x l := by
  cases h with
  | kept h => exact h
  | packed _ hlen _ _ =>
    have hpos := arity_pos hl
    refine ⟨?_, ?_⟩
    · simp only [List.length_append, List.length_take, List.length_singleton]
      omega
    · rw [List.getLast?_concat]
      exact beq_self_eq_true x

section Described

variable (hs : s.WellFormed) (hl : k.lastParam? = some last)
  (hx : s.catalog.component? last = some x)
include hs hl hx

theorem gathered (hv : k.isVariadic = true) (args : List (Datum π)) :
    s.Gathered k x args ((source.gather k args).runFrom s).1 := by
  rw [runFrom_gather hs hv hl hx, Ctor.length_fixedParams]
  by_cases hfill : Filled k x args
  · rw [if_pos hfill]
    exact .kept hfill
  rw [if_neg hfill]
  unfold TypeSource.gatherFrom
  by_cases hlen : args.length < k.arity - 1
  · rw [if_pos hlen]
    exact .tooFew hlen
  rw [if_neg hlen, Failable.runFrom_bind]
  have hcount : (List.replicate (args.drop (k.arity - 1)).length x).length =
      (args.drop (k.arity - 1)).length := List.length_replicate
  have hjudged := s.judged_acceptAll (k.arity - 1) hcount
  generalize (source.acceptAll (k.arity - 1) _ (args.drop (k.arity - 1))).runFrom s = r
    at hjudged ⊢
  obtain ⟨e | items, s'⟩ := r
  · obtain ⟨i, t, a, hfirst, rfl⟩ := hjudged
    obtain rfl := List.eq_of_mem_replicate (List.mem_of_getElem? hfirst.type)
    refine .refused hfill hfirst.datum ?_ fun j hj => suitsAt_replicate.mp (hfirst.earlier j hj)
    exact fun htakes => hfirst.refused (htakes a hfirst.datum)
  · exact .packed hfill (Nat.le_of_not_lt hlen) (fun i => suitsAt_replicate.mp (hjudged.1 i))
      (becomes_replicate.mp hjudged.2)

omit hl in
/-- What fills the collecting parameter suits it. -/
theorem suits_of_fillsOver (ha : fillsOver x (some a) = true) : s.Suits last a := by
  refine (suits_reference (ofHandle?_of_component? hx)).mpr ?_
  cases a with
  | null => exact .inl rfl
  | array y items =>
    obtain rfl := beq_iff_eq.mp ha
    refine .inr ?_
    rw [Passes, (HasType.array hx).run hs]
    exact Catalog.converts_same (ne_of_component? hx (by decide)) (ne_of_component? hx (by decide))
  | _ => cases ha

/-- Arguments that need no gathering are refused, if at all, before the last one. -/
theorem place?_of_conform (hfill : Filled k x args) {e : ArgumentError}
    (h : (source.conform k args).runFrom s = (.error e, s')) :
    ∃ i < k.arity - 1, e.place? = some i := by
  unfold TypeSource.conform at h
  rw [if_pos hfill.1] at h
  have hjudged := s.judged_acceptAll 0 hfill.1.symm
  rw [h] at hjudged
  obtain ⟨i, t, a, hfirst, rfl⟩ := hjudged
  obtain ⟨hi, -⟩ := List.getElem?_eq_some_iff.mp hfirst.type
  refine ⟨i, ?_, by rw [place?_refusal, Nat.zero_add]⟩
  by_contra hlast
  -- the last argument suits whenever its turn comes
  obtain ⟨d, front, rfl, hd, hfront⟩ := hfill.exists_concat hl
  have hi : i = k.fixedParams.length := by
    rw [← Ctor.arity] at hi
    rw [Ctor.length_fixedParams]
    omega
  have htype := hfirst.type
  have hdatum := hfirst.datum
  rw [hi, ← Ctor.fixedParams_append hl, List.getElem?_concat_length] at htype
  rw [hi, ← hfront, List.getElem?_concat_length] at hdatum
  obtain rfl := Option.some.inj htype
  obtain rfl := Option.some.inj hdatum
  have hsteps := hs.steps_judge (front ++ [d]) i
  exact hfirst.refused (suits_of_fillsOver (hsteps.wellFormed hs) (hsteps.grows.component? hx) hd)

end Described

/-- Gathering for a variadic constructor keeps the arguments, packs the trailing ones, or reports
the first of them that is refused, or that there are too few. What it returns has as many arguments
as there are parameters, and none of them is refused later at the last one. -/
theorem Reachable.gathers_trailing (hs : s.Reachable) (hk : s.Describes k)
    (hv : k.isVariadic = true) (args : List (Datum π)) :
    ∃ x, k.lastParam?.bind s.catalog.component? = some x ∧
      let r := (source.gather k args).runFrom s
      s.Gathered k x args r.1 ∧
      (∀ l, r.1 = .ok l → l.length = k.arity ∧
        ∀ s₁, r.2.Steps s₁ → ∀ e s₂, (source.conform k l).runFrom s₁ = (.error e, s₂) →
          ∃ i < k.arity - 1, e.place? = some i) ∧
      ((∀ a ∈ args, s.Familiar a) → ∀ i,
        s.TakesAt x (trailing k args) i ↔ ∀ a ∈ (trailing k args)[i]?, s.Suits x a) := by
  have hwf := hs.wellFormed
  obtain ⟨last, x, hl, hx⟩ := hwf.exists_component hk hv
  refine ⟨x, by rw [hl]; exact hx, ?_⟩
  intro r
  have hgathered : s.Gathered k x args r.1 := gathered hwf hl hx hv args
  have hsteps : s.OwnSteps r.2 := (steady_gather k args) s hwf
  refine ⟨hgathered, ?_, ?_⟩
  · intro l hok
    rw [hok] at hgathered
    have hfill := hgathered.filled hl
    refine ⟨hfill.1, fun s₁ hlater e s₂ he => ?_⟩
    have hlater := hsteps.steps.trans hlater
    exact place?_of_conform (hlater.wellFormed hwf) hl (hlater.grows.component? hx) hfill he
  · intro hargs i
    exact hwf.takesAt_iff (hwf.contains_component hx)
      (fun a ha => hargs a (List.mem_of_mem_drop ha)) i

/-- A store with meters. A meter is made for a name and any number of readings. -/
def meters : Store Journal Nat :=
  ({ serial := 1, world := [] } : Store Journal Nat)
    |>.apply (.arrayOf .long)
    |>.apply (.declare
        { name := "Meter", sort := .classType, modifiers := { isPublic := true },
          superclass := some .object,
          ctors :=
            [ { params := [.string, ⟨100⟩], modifiers := { isPublic := true, isVariadic := true },
                body := notingBody } ] })

/-- The constructor of a meter. -/
def meterOfAny : Ctor :=
  { handle := ⟨1⟩, owner := ⟨101⟩, params := [.string, ⟨100⟩],
    modifiers := { isPublic := true, isVariadic := true } }

theorem meters_reachable : meters.Reachable :=
  Reachable.initial 1 [] |>.apply _ |>.apply _

/-- Readings are packed as they come, each as the widest whole number; the first that is none of
them is named. -/
theorem gathers_trailing_meter :
    meters.Reachable ∧ meters.Describes meterOfAny ∧ meterOfAny.isVariadic = true ∧
    meters.Gathered meterOfAny .long [.string "tank", .int 3, .byte 4]
      (.ok [.string "tank", .array .long [.long 3, .long 4]]) ∧
    meters.Gathered meterOfAny .long [.string "tank", .int 3, .boolean true, .null]
      (.error (.unconvertible 2 "long" "Boolean")) ∧
    meters.Gathered meterOfAny .long [] (.error (.tooFew 1 0)) := by
  have hgathers := meters_reachable.gathers_trailing (k := meterOfAny) rfl rfl
  have hcomponent : meterOfAny.lastParam?.bind meters.catalog.component? = some .long := rfl
  have hpacked : ∀ args, meters.Gathered meterOfAny .long args
      ((source.gather meterOfAny args).runFrom meters).1 := by
    intro args
    obtain ⟨x, hx, hgathered, -⟩ := hgathers args
    obtain rfl := Option.some.inj (hcomponent.symm.trans hx)
    exact hgathered
  exact ⟨meters_reachable, rfl, rfl, hpacked _, hpacked _, hpacked _⟩

end Store

end BestFit
