import BestFit.Proofs.Shaping.Fitting

/-!
# Fitting arguments that are refused

Arguments whose types fit a constructor are shaped for it (`exists_shape`), but for one kind
of list, told by `Refuses`: the last argument is an array that fits the collecting parameter,
but is neither an array of the declared component, which would stay as it is, nor an item for
one, which could be gathered. Such a list is refused at that argument (`shape_of_refuses`).
-/
namespace BestFit

/-- The types of a request fit a constructor, one for each parameter or spread. -/
def Catalog.Fits (c : Catalog) (boxing : Bool) (k : Ctor) (request : List TypeHandle) : Prop :=
  c.convertsAll boxing request k.params = true ∨
    k.isVariadic = true ∧ c.fitsSpread boxing k request = true

theorem Catalog.fits_of_fit? {c : Catalog} {boxing : Bool} {k : Ctor}
    {request : List TypeHandle} {f : Fit} (h : c.fit? boxing k request = some f) :
    c.Fits boxing k request := by
  rcases fit?_eq_some.mp h with ⟨-, hdirect⟩ | ⟨-, -, hv, hspread⟩
  · exact .inl hdirect
  · exact .inr ⟨hv, hspread⟩

theorem Catalog.exists_fit?_iff {c : Catalog} {boxing : Bool} {k : Ctor}
    {request : List TypeHandle} :
    (∃ f, c.fit? boxing k request = some f) ↔ c.Fits boxing k request := by
  constructor
  · intro h
    obtain ⟨f, hf⟩ := h
    exact fits_of_fit? hf
  · intro h
    by_cases hdirect : c.convertsAll boxing request k.params = true
    · exact ⟨.direct, fit?_eq_some.mpr (.inl ⟨rfl, hdirect⟩)⟩
    · obtain ⟨hv, hspread⟩ := h.resolve_left hdirect
      exact ⟨.spread, fit?_eq_some.mpr
        (.inr ⟨rfl, Bool.eq_false_of_not_eq_true hdirect, hv, hspread⟩)⟩

/-- What fits goes on fitting wherever types go on converting and array types keep their
components. -/
theorem Catalog.Fits.imp {c c' : Catalog} {boxing boxing' : Bool} {k : Ctor}
    {request : List TypeHandle}
    (hconv : ∀ a b, c.converts boxing a b = true → c'.converts boxing' a b = true)
    (hcomponent : ∀ t x, c.component? t = some x → c'.component? t = some x)
    (h : c.Fits boxing k request) : c'.Fits boxing' k request := by
  rcases h with hdirect | ⟨hv, hspread⟩
  · exact .inl (convertsAll_imp hconv hdirect)
  · exact .inr ⟨hv, fitsSpread_imp hconv hcomponent hspread⟩

namespace Store

variable {ω π : Type} {s s' : Store ω π} {k : Ctor} {last x : TypeHandle} {boxing : Bool}
  {args : List (Datum π)} {request ts : List TypeHandle}

/-! ## Fitting goes on -/

theorem Grows.fits (h : s.Grows s') (hs : s.WellFormed) (hs' : s'.WellFormed)
    (hfit : s.catalog.Fits boxing k request) : s'.catalog.Fits boxing k request :=
  hfit.imp (fun _ _ => h.converts hs hs') fun _ _ => h.component?

/-! ## Lists that are refused -/

/-- The last argument of as many as there are parameters is an array of type `found`, but
neither an array of the declared component nor an item for one. -/
structure Refuses (s : Store ω π) (k : Ctor) (args : List (Datum π))
    (component found : TypeHandle) : Prop where
  variadic : k.isVariadic = true
  count : args.length = k.arity
  collects : k.lastParam?.bind s.catalog.component? = some component
  array : ∃ y items, args.getLast? = some (.array y items) ∧
    s.catalog.component? found = some y ∧ y ≠ component
  noItem : s.catalog.converts false found component = false

/-- A refused list is refused at its last argument. -/
theorem shape_of_refuses (hs : s.WellFormed) {found : TypeHandle}
    (h : s.Refuses k args x found) :
    ∃ s', (source.shape args k).runFrom s = (.error (.unconvertible k.fixedParams.length
      (s.catalog.nameOf x) (s.catalog.nameOf found)), s') := by
  obtain ⟨last, hl, hx⟩ := Option.bind_eq_some_iff.mp h.collects
  obtain ⟨y, items, hlast, hy, hyx⟩ := h.array
  have hfill : ¬Filled k x args := by
    rintro ⟨-, hfill⟩
    rw [hlast, fillsOver, beq_iff_eq] at hfill
    exact hyx hfill
  obtain ⟨front, rfl⟩ := List.getLast?_eq_some_iff.mp hlast
  have hlen : k.fixedParams.length = front.length := by
    have hcount := h.count
    rw [Ctor.arity, ← Ctor.fixedParams_append hl] at hcount
    simpa using hcount.symm
  have harray : s.Presents (.array y items) found := .array hy
  have hrefused := harray.accept_array hs rfl front.length h.noItem
  refine ⟨s, ?_⟩
  rw [TypeSource.shape, Failable.runFrom_bind, runFrom_gather hs h.variadic hl hx, if_neg hfill,
    hlen, gatherFrom_concat, Failable.runFrom_bind, hrefused]

/-! ## Lists that are shaped -/

/-- Arguments are accepted at the parameters that their types convert to. -/
theorem exists_conform (hs : s.WellFormed) (hargs : List.Forall₂ s.Presents args request)
    (h : s.catalog.convertsAll boxing request k.params = true) :
    ∃ l, (source.conform k args).runFrom s = (.ok l, s) := by
  have hlen : args.length = k.arity :=
    hargs.length_eq.trans (Catalog.convertsAll_length h)
  unfold TypeSource.conform
  rw [if_pos hlen]
  exact exists_acceptAll hs 0 hargs h

/-- The items that are gathered are accepted where their types convert to the component. -/
theorem exists_gatherFrom (hs : s.WellFormed) (hargs : List.Forall₂ s.Presents args request)
    {n : Nat} (hn : n ≤ args.length)
    (h : ∀ t ∈ request.drop n, s.catalog.converts boxing t x = true) :
    ∃ items, (source.gatherFrom n x args).runFrom s =
      (.ok (args.take n ++ [.array x items]), s) := by
  have htrailing := List.forall₂_drop n hargs
  have hconv : s.catalog.convertsAll boxing (request.drop n)
      (List.replicate (request.drop n).length x) = true := by
    rw [Catalog.convertsAll_replicate, List.all_eq_true]
    exact h
  obtain ⟨items, hitems⟩ := exists_acceptAll hs n htrailing hconv
  rw [← htrailing.length_eq] at hitems
  refine ⟨items, ?_⟩
  unfold TypeSource.gatherFrom
  rw [if_neg (Nat.not_lt.mpr hn)]
  exact Failable.runFrom_bind_eq_ok.mpr ⟨items, s, hitems, rfl⟩

/-- Arguments that fit one for each parameter, cut before the last one. -/
theorem exists_concat_of_direct (hl : k.lastParam? = some last)
    (hargs : List.Forall₂ s.Presents args request)
    (h : s.catalog.convertsAll boxing request k.params = true) :
    ∃ front a us u, args = front ++ [a] ∧ request = us ++ [u] ∧ s.Presents a u ∧
      us.length = k.fixedParams.length ∧ front.length = k.fixedParams.length ∧
      s.catalog.convertsAll boxing us k.fixedParams = true ∧
      s.catalog.converts boxing u last = true := by
  rw [← Ctor.fixedParams_append hl] at h
  have hlen := Catalog.convertsAll_length h
  rcases List.eq_nil_or_concat' request with rfl | ⟨us, u, rfl⟩
  · simp at hlen
  have hus : us.length = k.fixedParams.length := by simpa using hlen
  have hfront := List.forall₂_take_append args us [u] hargs
  have hback := List.forall₂_drop_append args us [u] hargs
  rw [Catalog.convertsAll_append hus, Bool.and_eq_true, Catalog.convertsAll_cons,
    Catalog.convertsAll_nil, Bool.and_true] at h
  generalize hdrop : args.drop us.length = back at hback
  cases hback with
  | @cons a _ _ _ ha hnil =>
    cases hnil
    refine ⟨args.take us.length, a, us, u, ?_, rfl, ha, hus, hfront.length_eq.trans hus, h⟩
    rw [← hdrop, List.take_append_drop]

section Variadic

variable (hs : s.WellFormed) (hv : k.isVariadic = true) (hl : k.lastParam? = some last)
  (hx : s.catalog.component? last = some x)
include hs hl hx

/-- Null and the arrays of the declared component are accepted at the collecting parameter. -/
theorem exists_conform_concat {front : List (Datum π)} {a : Datum π} {us : List TypeHandle}
    (hfront : List.Forall₂ s.Presents front us)
    (h : s.catalog.convertsAll boxing us k.fixedParams = true)
    (ha : fillsOver x (some a) = true) :
    ∃ l, (source.conform k (front ++ [a])).runFrom s = (.ok l, s) := by
  have hne : last ≠ .absent := ne_of_component? hx (by decide)
  have hnn : last ≠ .null := ne_of_component? hx (by decide)
  obtain ⟨u, hu, hconv⟩ : ∃ u, s.Presents a u ∧ s.catalog.converts boxing u last = true := by
    cases a with
    | null =>
      refine ⟨.null, .null, (Catalog.converts_iff hs.lawful.finite).mpr ?_⟩
      exact .null hne hnn (ofHandle?_of_component? hx) (Catalog.HasComponent.contains hx)
    | array y items =>
      rw [fillsOver, beq_iff_eq] at ha
      subst ha
      exact ⟨last, .array hx, Catalog.converts_same hne hnn⟩
    | _ => cases ha
  have hlen : us.length = k.fixedParams.length := Catalog.convertsAll_length h
  have hall : s.catalog.convertsAll boxing (us ++ [u]) k.params = true := by
    rw [← Ctor.fixedParams_append hl, Catalog.convertsAll_append hlen, h]
    simpa using hconv
  exact exists_conform hs (List.rel_append hfront (.cons hu .nil)) hall

include hv

/-- Shaping for a variadic constructor succeeds where the types of the first arguments
convert, and those of the others do if they have to be gathered. -/
theorem exists_shape_of_variadic (hargs : List.Forall₂ s.Presents args request)
    (hlen : k.fixedParams.length ≤ args.length)
    (hfixed : s.catalog.convertsAll boxing (request.take k.fixedParams.length)
      k.fixedParams = true)
    {boxing' : Bool} (hitems : ¬Filled k x args → ∀ t ∈ request.drop k.fixedParams.length,
      s.catalog.converts boxing' t x = true) :
    ∃ l s', (source.shape args k).runFrom s = (.ok l, s') := by
  have hrun := runFrom_gather hs hv hl hx args
  have hfront := List.forall₂_take k.fixedParams.length hargs
  by_cases hfill : Filled k x args
  · rw [if_pos hfill] at hrun
    obtain ⟨a, front, rfl, ha, hn⟩ := hfill.exists_concat hl
    rw [← hn] at hfront hfixed
    rw [List.take_left] at hfront
    obtain ⟨l, hconform⟩ := exists_conform_concat hs hl hx hfront hfixed ha
    exact ⟨l, s, Failable.runFrom_bind_eq_ok.mpr ⟨_, s, hrun, hconform⟩⟩
  · rw [if_neg hfill] at hrun
    obtain ⟨items, hgather⟩ := exists_gatherFrom hs hargs hlen (hitems hfill)
    have hfills : fillsOver x (some (.array x items : Datum π)) = true := beq_self_eq_true x
    obtain ⟨l, hconform⟩ := exists_conform_concat hs hl hx hfront hfixed hfills
    exact ⟨l, s, Failable.runFrom_bind_eq_ok.mpr ⟨_, s, hrun.trans hgather, hconform⟩⟩

/-- Arguments that fit one for each parameter are shaped unless they are refused. -/
theorem exists_shape_of_direct (hargs : List.Forall₂ s.Presents args request)
    (h : s.catalog.convertsAll boxing request k.params = true)
    (hno : ∀ found, ¬s.Refuses k args x found) :
    ∃ l s', (source.shape args k).runFrom s = (.ok l, s') := by
  have hcount : args.length = k.arity := hargs.length_eq.trans (Catalog.convertsAll_length h)
  obtain ⟨front, a, us, u, rfl, rfl, ha, hus, hfront, hfixed, hlast⟩ :=
    exists_concat_of_direct hl hargs h
  -- what fits the collecting parameter but does not fill it is an array over another component
  have hitem : fillsOver x (some a) = false → s.catalog.converts false u x = true := by
    intro hfills
    rcases ha.null_or_array hs hx hlast with rfl | ⟨y, items, rfl, hy⟩
    · cases hfills
    · have hyx : y ≠ x := beq_eq_false_iff_ne.mp hfills
      by_contra hconv
      exact hno u ⟨hv, hcount, by rw [hl]; exact hx,
        ⟨y, items, List.getLast?_concat, hy, hyx⟩, Bool.eq_false_of_not_eq_true hconv⟩
  have hitems : ¬Filled k x (front ++ [a]) →
      ∀ t ∈ (us ++ [u]).drop k.fixedParams.length, s.catalog.converts false t x = true := by
    intro hfill t ht
    rw [← hus, List.drop_left, List.mem_singleton] at ht
    subst ht
    refine hitem (Bool.eq_false_of_not_eq_true fun hfills => hfill ⟨hcount, ?_⟩)
    rwa [List.getLast?_concat]
  have htake : (us ++ [u]).take k.fixedParams.length = us := by
    rw [← hus, List.take_left]
  exact exists_shape_of_variadic hs hv hl hx hargs (by simp [← hfront]) (by rwa [htake]) hitems

end Variadic

/-- Arguments whose types fit a constructor are shaped for it unless they are refused. -/
theorem exists_shape (hs : s.WellFormed) (hk : s.Describes k)
    (hargs : List.Forall₂ s.Presents args request) (hfit : s.catalog.Fits boxing k request)
    (hno : ∀ x found, ¬s.Refuses k args x found) :
    ∃ l s', (source.shape args k).runFrom s = (.ok l, s') := by
  cases hv : k.isVariadic with
  | false =>
    rcases hfit with hdirect | ⟨hv', -⟩
    · obtain ⟨l, hconform⟩ := exists_conform hs hargs hdirect
      refine ⟨l, s, ?_⟩
      rwa [TypeSource.shape, gather_of_not_variadic hv, pure_bind]
    · rw [hv] at hv'
      cases hv'
  | true =>
    obtain ⟨last, x, hl, hx⟩ := hs.exists_component hk hv
    rcases hfit with hdirect | ⟨-, hspread⟩
    · exact exists_shape_of_direct hs hv hl hx hargs hdirect (hno x)
    · obtain ⟨last', x', hl', hx', hlen, hfixed, htail⟩ := Catalog.fitsSpread_iff.mp hspread
      obtain rfl := Option.some.inj (hl.symm.trans hl')
      obtain rfl := Option.some.inj (hx.symm.trans hx')
      rw [← hargs.length_eq] at hlen
      exact exists_shape_of_variadic hs hv hl hx hargs hlen hfixed fun _ => htail

end Store

end BestFit
