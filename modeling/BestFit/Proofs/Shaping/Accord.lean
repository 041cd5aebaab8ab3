import BestFit.Proofs.Selection.Stability
import BestFit.Proofs.Shaping.Refusal
import BestFit.Proofs.Store.Interning

/-!
# Acceptance and fitting

Acceptance asks for the type of a datum and compares it without boxing; fitting compares types
that were asked for before, with boxing. `Passes` is the common ground: the type of a datum, asked
for, converts. It does not depend on when it is asked for, although an array type may be stored
under another handle then (`passes_eq`). Acceptance comes to it by `accept_ok_iff`, fitting by
`represents_typesOf`. Main statement: `Reachable.accord`.
-/
namespace BestFit.Store

open Catalog (HasComponent)

variable {ω π : Type} {s s' : Store ω π} {a : Datum π} {t u x : TypeHandle} {boxing : Bool}
  {args : List (Datum π)} {ts : List TypeHandle} {k : Ctor}

/-! ## What a datum converts to -/

/-- Whether the type of a datum is declared if it is an object, and its component if it is an
array. -/
def Familiar (s : Store ω π) : Datum π → Prop
  | .object i => s.catalog.contains i.type = true
  | .array x _ => s.catalog.contains x = true
  | _ => True

/-- The type of a datum, asked for now, converts to another. -/
def Passes (s : Store ω π) (boxing : Bool) (t : TypeHandle) (a : Datum π) : Prop :=
  let r := (source.typeOf a).run s
  r.2.catalog.converts boxing r.1 t = true

/-- A declared type that array types over a component convert to, told by the component. -/
def TakesArray (s : Store ω π) (t x : TypeHandle) : Prop :=
  t = .object ∨ ∃ y, s.catalog.component? t = some y ∧
    (x = y ∨ (Primitive.ofHandle? x = none ∧ Primitive.ofHandle? y = none ∧
      s.catalog.Refers x y))

theorem Familiar.mono (h : s.Grows s') (ha : s.Familiar a) : s'.Familiar a := by
  cases a with
  | object i => exact h.contains ha
  | array x items => exact h.contains ha
  | _ => trivial

theorem Familiar.contains (hs : s.WellFormed) (ha : s.Familiar a) (hu : s.HasType a u) :
    s.catalog.contains u = true := by
  cases hu with
  | null => exact contains_iff.mpr ⟨_, s.decl?_builtin (by decide)⟩
  | boxed _ hw => exact hs.lawful.contains_wrapper hw
  | string => exact contains_iff.mpr ⟨_, s.decl?_builtin (by decide)⟩
  | array hx => exact HasComponent.contains hx
  | object i => exact ha

/-- What an array type converts to, with boxing or without. -/
theorem WellFormed.converts_array_iff (hs : s.WellFormed) (hx : s.catalog.component? u = some x)
    (ht : s.catalog.contains t = true) :
    s.catalog.converts boxing u t = true ↔ s.TakesArray t x := by
  have hu : Primitive.ofHandle? u = none := ofHandle?_of_component? hx
  have hn : u ≠ .null := ne_of_component? hx (by decide)
  have hc : s.catalog.contains u = true := HasComponent.contains hx
  rw [Catalog.converts_iff hs.lawful.finite]
  constructor
  · intro h
    have htref := h.ofHandle?_of_component? hs.lawful hu hx
    rcases h.of_reference hn hu htref with rfl | hrefers
    · exact .inr ⟨x, hx, .inl rfl⟩
    · obtain ⟨-, -, rfl | ⟨hnone, -⟩ | ⟨x', y, hx', hy, h⟩⟩ := Catalog.refers_iff.mp hrefers
      · exact .inl rfl
      · rw [hx] at hnone
        cases hnone
      · obtain rfl := Option.some.inj (hx.symm.trans hx')
        exact .inr ⟨y, hy, h⟩
  · intro h
    have hrefers : s.catalog.Refers u t := by
      refine Catalog.refers_iff.mpr ⟨hc, ht, ?_⟩
      rcases h with rfl | ⟨y, hy, h⟩
      · exact .inl rfl
      · exact .inr (.inr ⟨x, y, hx, hy, h⟩)
    have htref : Primitive.ofHandle? t = none := by
      rcases h with rfl | ⟨y, hy, -⟩
      · decide
      · exact ofHandle?_of_component? hy
    exact .refer (ne_absent_of_contains hc) (ne_absent_of_contains ht) hn hu htref hrefers

/-! ## Growth -/

theorem Grows.takesArray_eq (h : s.Grows s') (hs : s.WellFormed) (hx : s.catalog.contains x = true)
    (ht : s.catalog.contains t = true) : s'.TakesArray t x ↔ s.TakesArray t x := by
  unfold TakesArray
  rw [h.component?_eq ht]
  refine or_congr_right (exists_congr fun y => and_congr_right fun hy => or_congr_right ?_)
  refine and_congr_right fun _ => and_congr_right fun _ => ?_
  exact ⟨fun hr => h.refers_of_later hs hr hx (hs.contains_component hy), h.refers⟩

theorem Grows.canHold_eq (h : s.Grows s') (hx : s.catalog.contains x = true) :
    s'.canHold x = s.canHold x := by
  simp only [Store.canHold, Catalog.canHold, hx, h.contains hx]

/-- Whether the type of an array converts, told by its component. -/
theorem WellFormed.passes_array_iff (hs : s.WellFormed) (items : List (Datum π))
    (hx : s.catalog.contains x = true) (ht : s.catalog.contains t = true) :
    s.Passes boxing t (.array x items) ↔ s.canHold x = true ∧ s.TakesArray t x := by
  show (let r := (Store.arrayOf x).run s
    r.2.catalog.converts boxing r.1 t = true) ↔ _
  cases hcan : s.canHold x with
  | true =>
    obtain ⟨u, s₁, hrun, hu⟩ := hs.run_arrayOf_of_canHold hcan
    have hsteps := steps_of_run_arrayOf hrun
    rw [hrun]
    show s₁.catalog.converts boxing u t = true ↔ _
    rw [(hsteps.wellFormed hs).converts_array_iff hu (hsteps.grows.contains ht),
      hsteps.grows.takesArray_eq hs hx ht]
    simp
  | false =>
    rw [hs.run_arrayOf_of_not_canHold hcan]
    refine iff_of_false (fun hconv => ?_) (by simp)
    exact hs.ne_absent_of_converts hconv rfl

/-- It does not matter when the type of a datum is asked for. -/
theorem Grows.passes_eq (h : s.Grows s') (hs : s.WellFormed) (hs' : s'.WellFormed)
    (ha : s.Familiar a) (ht : s.catalog.contains t = true) :
    s'.Passes boxing t a ↔ s.Passes boxing t a := by
  have htype : ∀ u, s.HasType a u → (s'.Passes boxing t a ↔ s.Passes boxing t a) := by
    intro u hu
    unfold Passes
    rw [hu.run hs, (hu.mono h).run hs']
    show s'.catalog.converts boxing u t = true ↔ s.catalog.converts boxing u t = true
    rw [h.converts_eq hs hs' (ha.contains hs hu) ht]
  cases a with
  | null => exact htype .null .null
  | string text => exact htype .string (.string text)
  | object i => exact htype i.type (.object i)
  | array x items =>
    -- the array type may have different handles on the two stores, the component has one
    rw [hs.passes_array_iff items ha ht, hs'.passes_array_iff items (h.contains ha) (h.contains ht),
      h.takesArray_eq hs ha ht, h.canHold_eq ha]
  | _ => exact htype _ (.boxed rfl rfl)

/-! ## Acceptance -/

/-- A datum can be accepted where a type is expected. -/
def Suits (s : Store ω π) (t : TypeHandle) (a : Datum π) : Prop :=
  match Primitive.ofHandle? t with
  | some p => (a.widenTo p).isSome
  | none => a.isNull = true ∨ s.Passes false t a

theorem suits_primitive {p : Primitive} (ht : Primitive.ofHandle? t = some p) :
    s.Suits t a ↔ (a.widenTo p).isSome := by
  simp only [Suits, ht]

theorem suits_reference (ht : Primitive.ofHandle? t = none) :
    s.Suits t a ↔ a.isNull = true ∨ s.Passes false t a := by
  simp only [Suits, ht]

/-- Acceptance succeeds where it can. -/
theorem accept_ok_iff (index : Nat) :
    (∃ b s', (source.accept index t a).runFrom s = (.ok b, s')) ↔ s.Suits t a := by
  cases ht : Primitive.ofHandle? t with
  | some p =>
    rw [source.runFrom_accept_primitive s index a ht, suits_primitive ht]
    cases hw : a.widenTo p with
    | some b => simp
    | none =>
      simp only [Option.isSome_none, Bool.false_eq_true, iff_false]
      split <;> simp
  | none =>
    rw [source.runFrom_accept_reference s index a ht, suits_reference ht, Passes]
    by_cases hn : a.isNull = true
    · simp [hn]
    · rw [if_neg hn]
      generalize (source.typeOf a).run s = r
      by_cases hconv : r.2.catalog.converts false r.1 t = true
      · simp [hconv]
      · simp [hconv, hn]

theorem Grows.suits_eq (h : s.Grows s') (hs : s.WellFormed) (hs' : s'.WellFormed)
    (ha : s.Familiar a) (ht : s.catalog.contains t = true) : s'.Suits t a ↔ s.Suits t a := by
  cases hp : Primitive.ofHandle? t with
  | some p => rw [suits_primitive hp, suits_primitive hp]
  | none => rw [suits_reference hp, suits_reference hp, h.passes_eq hs hs' ha ht]

theorem forall₂_suits_eq (h : s.Grows s') (hs : s.WellFormed) (hs' : s'.WellFormed)
    (hargs : ∀ a ∈ args, s.Familiar a) (hts : s.Knows ts) :
    List.Forall₂ s'.Suits ts args ↔ List.Forall₂ s.Suits ts args := by
  induction ts generalizing args with
  | nil => simp
  | cons t ts ih =>
    cases args with
    | nil => simp
    | cons a args =>
      obtain ⟨ha, hargs⟩ := List.forall_mem_cons.mp hargs
      obtain ⟨ht, hts⟩ := List.forall_mem_cons.mp hts
      rw [List.forall₂_cons, List.forall₂_cons, h.suits_eq hs hs' ha ht, ih hargs hts]

/-- Data are accepted one by one where each of them can be. -/
theorem acceptAll_ok_iff (hs : s.WellFormed) (index : Nat) (hlen : ts.length = args.length)
    (hargs : ∀ a ∈ args, s.Familiar a) (hts : s.Knows ts) :
    (∃ l s', (source.acceptAll index ts args).runFrom s = (.ok l, s')) ↔
      List.Forall₂ s.Suits ts args := by
  induction ts generalizing index args s with
  | nil =>
    obtain rfl := List.eq_nil_of_length_eq_zero hlen.symm
    exact iff_of_true ⟨[], s, rfl⟩ .nil
  | cons t ts ih =>
    obtain ⟨a, args, rfl⟩ := List.exists_cons_of_length_eq_add_one hlen.symm
    obtain ⟨ha, hargs⟩ := List.forall_mem_cons.mp hargs
    obtain ⟨ht, hts⟩ := List.forall_mem_cons.mp hts
    -- what the first acceptance leaves behind makes no difference to the others
    have hrest : ∀ {r s₁}, (source.accept index t a).runFrom s = (r, s₁) →
        ((∃ l s', (source.acceptAll (index + 1) ts args).runFrom s₁ = (.ok l, s')) ↔
          List.Forall₂ s.Suits ts args) := by
      intro r s₁ h
      have hsteps := (steady_accept index t a).steps hs h
      have hs₁ := hsteps.wellFormed hs
      rw [ih hs₁ (index + 1) (Nat.succ.inj hlen) (fun b hb => (hargs b hb).mono hsteps.grows)
        fun u hu => hsteps.grows.contains (hts u hu)]
      exact forall₂_suits_eq hsteps.grows hs hs₁ hargs hts
    rw [TypeSource.acceptAll_cons, List.forall₂_cons, ← accept_ok_iff index]
    constructor
    · intro h
      obtain ⟨l, s', h⟩ := h
      obtain ⟨b, s₁, hb, h⟩ := Failable.runFrom_bind_eq_ok.mp h
      obtain ⟨bs, s₂, hbs, -⟩ := Failable.runFrom_bind_eq_ok.mp h
      exact ⟨⟨b, s₁, hb⟩, (hrest hb).mp ⟨bs, s₂, hbs⟩⟩
    · intro h
      obtain ⟨⟨b, s₁, hb⟩, hsuits⟩ := h
      obtain ⟨bs, s₂, hbs⟩ := (hrest hb).mpr hsuits
      exact ⟨b :: bs, s₂, Failable.runFrom_bind_eq_ok.mpr ⟨b, s₁, hb,
        Failable.runFrom_bind_eq_ok.mpr ⟨bs, s₂, hbs, rfl⟩⟩⟩

/-- A relation to one and the same element, item by item. -/
theorem forall₂_replicate_iff {α β : Type} {R : α → β → Prop} {a : α} {l : List β} :
    List.Forall₂ R (List.replicate l.length a) l ↔ ∀ b ∈ l, R a b := by
  induction l with
  | nil => simp
  | cons b l ih => rw [List.length_cons, List.replicate_succ, List.forall₂_cons, ih,
      List.forall_mem_cons]

/-- What can be accepted once it is gathered: one datum for each fixed parameter, and any number
for the component of the collecting one. -/
def SuitsSpread (s : Store ω π) (k : Ctor) (x : TypeHandle) (args : List (Datum π)) : Prop :=
  k.fixedParams.length ≤ args.length ∧
    List.Forall₂ s.Suits k.fixedParams (args.take k.fixedParams.length) ∧
    ∀ a ∈ args.drop k.fixedParams.length, s.Suits x a

section Later

variable (hs : s.WellFormed) (hsteps : s.Steps s') (hargs : ∀ a ∈ args, s.Familiar a)
include hs hsteps hargs

/-- Data are accepted at the parameters where each of them can be, now or later. -/
theorem conform_ok_iff (hk : s.Describes k) :
    (∃ l s'', (source.conform k args).runFrom s' = (.ok l, s'')) ↔
      List.Forall₂ s.Suits k.params args := by
  have hs' := hsteps.wellFormed hs
  have hdesc : s'.Describes k := hsteps.grows.ctor? hk
  rw [← forall₂_suits_eq hsteps.grows hs hs' hargs (hs.knows_params hk)]
  unfold TypeSource.conform
  by_cases hlen : args.length = k.arity
  · rw [if_pos hlen]
    exact acceptAll_ok_iff hs' 0 hlen.symm (fun a ha => (hargs a ha).mono hsteps.grows)
      (hs'.knows_params hdesc)
  · rw [if_neg hlen]
    exact iff_of_false (by simp) fun h => hlen h.length_eq.symm

/-- What is gathered was accepted, each datum on its own. -/
theorem suits_of_gatherFrom (hx : s.catalog.contains x = true) {n : Nat} {l : List (Datum π)}
    {s'' : Store ω π} (h : (source.gatherFrom n x args).runFrom s' = (.ok l, s'')) :
    ∀ a ∈ args.drop n, s.Suits x a := by
  have hs' := hsteps.wellFormed hs
  unfold TypeSource.gatherFrom at h
  split at h
  · cases h
  · obtain ⟨items, s₁, hitems, -⟩ := Failable.runFrom_bind_eq_ok.mp h
    have hall := (acceptAll_ok_iff hs' n List.length_replicate
      (fun a ha => (hargs a (List.mem_of_mem_drop ha)).mono hsteps.grows)
      (knows_replicate (hsteps.grows.contains hx))).mp ⟨items, s₁, hitems⟩
    intro a ha
    have hsuits := forall₂_replicate_iff.mp hall a ha
    exact (hsteps.grows.suits_eq hs hs' (hargs a (List.mem_of_mem_drop ha)) hx).mp hsuits

/-- What shaping succeeds for can be accepted as it is, or once it is gathered. -/
theorem suits_of_shape (hk : s.Describes k) {l : List (Datum π)} {s'' : Store ω π}
    (h : (source.shape args k).runFrom s' = (.ok l, s'')) :
    List.Forall₂ s.Suits k.params args ∨
      ∃ last x, k.isVariadic = true ∧ k.lastParam? = some last ∧
        s.catalog.component? last = some x ∧ s.SuitsSpread k x args := by
  have hs' := hsteps.wellFormed hs
  obtain ⟨g, s₁, hgather, hconform⟩ := Failable.runFrom_bind_eq_ok.mp h
  have hsteps₁ := hsteps.trans ((steady_gather k args).steps hs' hgather).steps
  cases hv : k.isVariadic with
  | false =>
    rw [gather_of_not_variadic hv] at hgather
    cases hgather
    exact .inl ((conform_ok_iff hs hsteps hargs hk).mp ⟨l, s'', hconform⟩)
  | true =>
    obtain ⟨last, x, hl, hx⟩ := hs.exists_component hk hv
    have hcx := hs.contains_component hx
    rw [runFrom_gather hs' hv hl (hsteps.grows.component? hx)] at hgather
    by_cases hfill : Filled k x args
    · rw [if_pos hfill] at hgather
      cases hgather
      exact .inl ((conform_ok_iff hs hsteps hargs hk).mp ⟨l, s'', hconform⟩)
    · rw [if_neg hfill] at hgather
      obtain ⟨hlen, items, rfl, -, -⟩ := gatherFrom_eq_ok hs' hgather
      have hgathered : ∀ a ∈ args.take k.fixedParams.length ++ [Datum.array x items],
          s.Familiar a := by
        intro a ha
        rcases List.mem_append.mp ha with ha | ha
        · exact hargs a (List.mem_of_mem_take ha)
        · rw [List.mem_singleton.mp ha]
          exact hcx
      have hall := (conform_ok_iff hs hsteps₁ hgathered hk).mp ⟨l, s'', hconform⟩
      have hfixed := List.forall₂_take k.fixedParams.length hall
      rw [← Ctor.fixedParams_append hl, List.take_left,
        List.take_append_of_le_length (by simpa using hlen), List.take_take, Nat.min_self] at hfixed
      exact .inr ⟨last, x, rfl, hl, hx, hlen, hfixed,
        suits_of_gatherFrom hs hsteps hargs hcx hgather⟩

end Later

/-! ## Fitting -/

/-- A type stands on a later store for a datum: it converts to what the type of the datum converts
to now. -/
def Represents (s s' : Store ω π) (a : Datum π) (u : TypeHandle) : Prop :=
  ∀ boxing t, s.catalog.contains t = true →
    (s'.catalog.converts boxing u t = true ↔ s.Passes boxing t a)

/-- The types that are answered stand for the data, now or later. -/
theorem represents_typesOf (hs : s.WellFormed) (hsteps : s.Steps s')
    (hargs : ∀ a ∈ args, s.Familiar a) :
    let r := (source.typesOf args).run s'
    List.Forall₂ (s.Represents r.2) args r.1 := by
  induction args generalizing s' with
  | nil => exact .nil
  | cons a args ih =>
    obtain ⟨ha, hargs⟩ := List.forall_mem_cons.mp hargs
    have hs' := hsteps.wellFormed hs
    obtain ⟨u, s₁, hrun, hsteps₁, hans⟩ := hs'.run_typeOf a
    have hs₁ := hsteps₁.wellFormed hs'
    obtain ⟨us, s₂, hrest, hsteps₂, -⟩ := hs₁.run_typesOf args
    have hs₂ := hsteps₂.wellFormed hs₁
    have hlater := hsteps.trans hsteps₁.steps
    have hih := ih hlater hargs
    rw [TypeSource.run_typesOf_cons, hrun]
    simp only [hrest] at hih ⊢
    refine .cons (fun boxing t ht => ?_) hih
    have hpasses : s₁.catalog.converts boxing u t = true ↔ s.Passes boxing t a := by
      rw [← hsteps.grows.passes_eq hs hs' ha ht, Passes, hrun]
    rw [← hpasses]
    rcases hans with hu | rfl
    · rw [hsteps₂.grows.converts_eq hs₁ hs₂ ((ha.mono hlater.grows).contains hs₁ hu)
        (hlater.grows.contains ht)]
    · exact iff_of_false (fun h => hs₂.ne_absent_of_converts h rfl)
        fun h => hs₁.ne_absent_of_converts h rfl

/-- The types of data convert position by position where those of the single data do. -/
theorem convertsAll_of_represents {request : List TypeHandle}
    (h : List.Forall₂ (s.Represents s') args request) (hts : s.Knows ts) :
    s'.catalog.convertsAll boxing request ts = true ↔ List.Forall₂ (s.Passes boxing) ts args := by
  induction h generalizing ts with
  | nil => cases ts <;> simp [Catalog.convertsAll]
  | @cons a u args request hu _ ih =>
    cases ts with
    | nil => simp [Catalog.convertsAll]
    | cons t ts =>
      obtain ⟨ht, hts⟩ := List.forall_mem_cons.mp hts
      rw [Catalog.convertsAll_cons, Bool.and_eq_true, List.forall₂_cons, hu boxing t ht, ih hts]

/-! ## Both -/

/-- What can be accepted has a type that converts with boxing. -/
theorem Suits.passes (hs : s.WellFormed) (ht : s.canHold t = true) (h : s.Suits t a) :
    s.Passes true t a := by
  obtain ⟨hn, -, hc⟩ := canHold_iff.mp ht
  cases hp : Primitive.ofHandle? t with
  | some p =>
    obtain rfl := Primitive.eq_handle_of_ofHandle? hp
    obtain ⟨q, hq, hqp⟩ := Datum.widenTo_isSome_iff.mp ((suits_primitive hp).mp h)
    obtain ⟨w, hw⟩ := exists_wrapper_of_primitive? hq
    rw [Passes, (HasType.boxed hq hw).run hs]
    exact (Catalog.converts_iff hs.lawful.finite).mpr (.unbox rfl hw hqp)
  | none =>
    rcases (suits_reference hp).mp h with hnull | hpasses
    · cases a <;> cases hnull
      exact (Catalog.converts_iff hs.lawful.finite).mpr (.null (ne_absent_of_contains hc) hn hp hc)
    · obtain ⟨u, s₁, hrun, hsteps, -⟩ := hs.run_typeOf a
      have hfin := (hsteps.wellFormed hs).lawful.finite
      rw [Passes, hrun] at hpasses ⊢
      exact (Catalog.converts_iff hfin).mpr (((Catalog.converts_iff hfin).mp hpasses).boxed)

/-- Whether a datum is no object of a primitive or wrapper type. -/
def Unmixed (a : Datum π) : Prop :=
  ∀ i, a = .object i → Primitive.ofHandle? i.type = none ∧ Primitive.ofWrapper? i.type = none

/-- Data that are boxed or unboxed as their types say can be accepted where their types
convert. -/
theorem Passes.suits (hs : s.WellFormed) (ha : Unmixed a) (h : s.Passes true t a) :
    s.Suits t a := by
  obtain ⟨u, s₁, hrun, hsteps, hans⟩ := hs.run_typeOf a
  have hs₁ := hsteps.wellFormed hs
  have hconv : s₁.catalog.converts true u t = true := by
    rw [Passes, hrun] at h
    exact h
  have hu : s₁.HasType a u := hans.resolve_right (hs₁.ne_absent_of_converts hconv)
  have huref : Primitive.ofHandle? u = none := hu.ofHandle? fun i hi => (ha i hi).1
  rw [Catalog.converts_iff hs₁.lawful.finite] at hconv
  cases hp : Primitive.ofHandle? t with
  | some p =>
    obtain rfl := Primitive.eq_handle_of_ofHandle? hp
    obtain ⟨-, q, hw, hqp⟩ := hconv.of_reference_primitive huref
    have hq := hu.primitive?_of_wrapper hs₁ hw fun i hi => (ha i hi).2
    exact (suits_primitive hp).mpr (Datum.widenTo_isSome_iff.mpr ⟨q, hq, hqp⟩)
  | none =>
    refine (suits_reference hp).mpr (.inr ?_)
    rw [Passes, hrun]
    exact (Catalog.converts_iff hs₁.lawful.finite).mpr (hconv.unboxed huref hp)

/-- What can be accepted has types that fit. -/
theorem fits_of_suits (hs : s.WellFormed) (hk : s.Describes k) (h : s.Grows s')
    {request : List TypeHandle} (hrequest : List.Forall₂ (s.Represents s') args request)
    (hsuits : List.Forall₂ s.Suits k.params args ∨
      ∃ last x, k.isVariadic = true ∧ k.lastParam? = some last ∧
        s.catalog.component? last = some x ∧ s.SuitsSpread k x args) :
    s'.catalog.Fits true k request := by
  have hcan : ∀ p ∈ k.params, s.canHold p = true := fun p hp => hs.canHold_params hk hp
  have hpasses : ∀ {ts : List TypeHandle} {as : List (Datum π)}, (∀ t ∈ ts, s.canHold t = true) →
      List.Forall₂ s.Suits ts as → List.Forall₂ (s.Passes true) ts as := by
    intro ts as hts hall
    refine ((List.forall₂_and_left ts as).mpr ⟨hts, hall⟩).imp ?_
    intro t a hta
    exact hta.2.passes hs hta.1
  rcases hsuits with hall | ⟨last, x, hv, hl, hx, hlen, hfixed, htail⟩
  · exact .inl ((convertsAll_of_represents hrequest (hs.knows_params hk)).mpr
      (hpasses hcan hall))
  · have hfixedParams : k.fixedParams ⊆ k.params := List.dropLast_subset _
    have hcx := hs.canHold_component hx
    refine .inr ⟨hv, Catalog.fitsSpread_iff.mpr ⟨last, x, hl, h.component? hx, ?_, ?_, ?_⟩⟩
    · rwa [← hrequest.length_eq]
    · exact (convertsAll_of_represents (List.forall₂_take _ hrequest)
        ((hs.knows_params hk).of_subset hfixedParams)).mpr
        (hpasses (fun p hp => hcan p (hfixedParams hp)) hfixed)
    · have hdrop := List.forall₂_drop k.fixedParams.length hrequest
      have hcomponents : ∀ t ∈ List.replicate (args.drop k.fixedParams.length).length x,
          s.canHold t = true := fun t ht => by rwa [List.eq_of_mem_replicate ht]
      have hall := (convertsAll_of_represents hdrop
        (knows_replicate (hs.contains_component hx))).mpr
        (hpasses hcomponents (forall₂_replicate_iff.mpr htail))
      rw [hdrop.length_eq, Catalog.convertsAll_replicate, List.all_eq_true] at hall
      exact hall

/-- Whenever data of declared types can be shaped for a constructor, their types fit it, whenever
these are asked for. Without gathering, and with objects of neither primitive nor wrapper types,
the converse is true as well. -/
theorem Reachable.accord (hs : s.Reachable) (hk : s.Describes k)
    (hargs : ∀ a ∈ args, s.Familiar a) {s₁ s₂ : Store ω π} (hsteps₁ : s.Steps s₁)
    (hsteps₂ : s.Steps s₂) :
    let r := (source.typesOf args).run s₂
    ((∃ l s', (source.shape args k).runFrom s₁ = (.ok l, s')) →
      ∃ f, r.2.catalog.fit? true k r.1 = some f) ∧
    (k.isVariadic = false →
      (∀ i, Datum.object i ∈ args →
        Primitive.ofHandle? i.type = none ∧ Primitive.ofWrapper? i.type = none) →
      ((∃ l s', (source.conform k args).runFrom s₁ = (.ok l, s')) ↔
        ∃ f, r.2.catalog.fit? true k r.1 = some f)) := by
  intro r
  have hwf := hs.wellFormed
  have hrequest := represents_typesOf hwf hsteps₂ hargs
  have hs₂ := hsteps₂.wellFormed hwf
  obtain ⟨request, s₃, hrun, hsteps₃, -⟩ := hs₂.run_typesOf args
  rw [hrun] at hrequest
  rw [show r = (request, s₃) from hrun]
  have hgrows := hsteps₂.grows.trans hsteps₃.grows
  simp only [Catalog.exists_fit?_iff]
  refine ⟨fun hshape => ?_, fun hv hunmixed => ?_⟩
  · obtain ⟨l, s', h⟩ := hshape
    exact fits_of_suits hwf hk hgrows hrequest (suits_of_shape hwf hsteps₁ hargs hk h)
  · rw [conform_ok_iff hwf hsteps₁ hargs hk]
    constructor
    · intro hsuits
      exact fits_of_suits hwf hk hgrows hrequest (.inl hsuits)
    · intro hfits
      have hdirect := hfits.resolve_right fun h => by simp [hv] at h
      have hpasses := (convertsAll_of_represents hrequest (hwf.knows_params hk)).mp hdirect
      rw [List.forall₂_iff_get] at hpasses ⊢
      refine ⟨hpasses.1, fun i hi hj => (hpasses.2 i hi hj).suits hwf fun j hjobj => ?_⟩
      exact hunmixed j (hjobj ▸ List.get_mem args ⟨i, hj⟩)

/-- Two dogs are gathered for a kennel, and their types fit the constructor for any number of
animals. The one for an animal accepts a dog, and fits its type. -/
theorem accord_kennel :
    let k : Ctor := { handle := ⟨2⟩, owner := ⟨103⟩, params := [⟨100⟩],
                      modifiers := { isPublic := true } }
    let dog : Datum Nat := .object ⟨⟨101⟩, ⟨1, 0⟩, 0⟩
    kennels.Reachable ∧ kennels.Steps kennels ∧
    (kennels.Describes kennelOfAny ∧ (∀ a ∈ twoDogs, kennels.Familiar a) ∧
      (∃ l s', (source.shape twoDogs kennelOfAny).runFrom kennels = (.ok l, s')) ∧
      let r := (source.typesOf twoDogs).run kennels
      ∃ f, r.2.catalog.fit? true kennelOfAny r.1 = some f) ∧
    (kennels.Describes k ∧ (∀ a ∈ [dog], kennels.Familiar a) ∧
      (∃ l s', (source.conform k [dog]).runFrom kennels = (.ok l, s')) ∧
      let r := (source.typesOf [dog]).run kennels
      ∃ f, r.2.catalog.fit? true k r.1 = some f) := by
  intro k dog
  have hreach := kennels_ownReachable.reachable
  have hrefl := Steps.refl kennels
  have hknown : kennels.catalog.contains ⟨101⟩ = true := by decide
  have hdogs : ∀ a ∈ twoDogs, kennels.Familiar a := by
    intro a ha
    rcases List.mem_pair.mp ha with rfl | rfl <;> exact hknown
  have hdog : ∀ a ∈ [dog], kennels.Familiar a := by
    intro a ha
    rw [List.mem_singleton.mp ha]
    exact hknown
  have hshape : ∃ l s', (source.shape twoDogs kennelOfAny).runFrom kennels = (.ok l, s') :=
    ⟨_, _, rfl⟩
  have hconform : ∃ l s', (source.conform k [dog]).runFrom kennels = (.ok l, s') := ⟨_, _, rfl⟩
  have hspread := (hreach.accord (k := kennelOfAny) rfl hdogs hrefl hrefl).1
  have hdirect := (hreach.accord (k := k) rfl hdog hrefl hrefl).2 rfl fun i hi => by
    obtain rfl := Datum.object.inj (List.mem_singleton.mp hi)
    decide
  exact ⟨hreach, hrefl, ⟨rfl, hdogs, hshape, hspread hshape⟩, rfl, hdog, hconform,
    hdirect.mp hconform⟩

end BestFit.Store
