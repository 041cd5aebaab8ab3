import BestFit.Proofs.Construction.Calls
import BestFit.Proofs.Store.Additions

/-!
# Requests for handles without a type

A search refuses a handle without a type before anything else, and so does a construction for
given types. A construction for the types of its arguments asks for these first, and the store
may gain array types by being asked (`run_typesOf_eq_self_iff` says when), of which one may even
get the handle in question. Main statement: `Reachable.rejects_iff`.
-/
namespace BestFit

/-- What is reported for a handle that names no type. -/
def FactoryError.ofHandle (t : TypeHandle) : FactoryError :=
  if t = .absent then .noType else .unknownType t

/-! ## Searches that find nothing -/

namespace Entry

variable {σ π : Type} (F : Factory σ π) (t : TypeHandle)

/-- Whether the construction goes by the types of its arguments. -/
def infers : Entry π → Bool
  | best _ | exact _ => true
  | bestAs .. | exactAs .. => false

/-- The search for a constructor. -/
def find (e : Entry π) (request : List TypeHandle) : Failable σ FactoryError (Option Ctor) :=
  if e.gathers then F.bestCtor? t request else F.exactCtor? t request

variable {F t} {e : Entry π} {request : List TypeHandle} {s s' : σ}

/-- No call is found by a search that fails, and its error is reported. -/
theorem runFrom_callFor_of_error {x : FactoryError}
    (h : (e.find F t request).runFrom s = (.error x, s')) :
    (e.callFor F t request).runFrom s = (.error x, s') := by
  unfold find at h
  unfold callFor
  cases hg : e.gathers with
  | true =>
    rw [hg, if_pos rfl] at h
    rw [if_pos rfl, Factory.bestCall, Failable.runFrom_bind, h]
  | false =>
    rw [hg, if_neg Bool.false_ne_true] at h
    rw [if_neg Bool.false_ne_true, Factory.exactCall, Failable.runFrom_bind, h]

/-- No call is found by a search that comes to nothing. -/
theorem runFrom_callFor_of_none (h : (e.find F t request).runFrom s = (.ok none, s')) :
    (e.callFor F t request).runFrom s =
      (.error (.notFound ((F.source.catalog s').nameOf t)
        ((F.source.catalog s').signature request)), s') := by
  unfold find at h
  unfold callFor
  cases hg : e.gathers with
  | true =>
    rw [hg, if_pos rfl] at h
    simp only [if_true, Factory.bestCall, Failable.runFrom_bind, h, Factory.runFrom_found]
  | false =>
    rw [hg, if_neg Bool.false_ne_true] at h
    simp only [Bool.false_eq_true, if_false, Factory.exactCall, Failable.runFrom_bind, h,
      Factory.runFrom_found]

end Entry

namespace Factory

variable {σ π : Type} (F : Factory σ π) {t : TypeHandle} {request : List TypeHandle} {s : σ}

/-- Whatever starts by getting the catalog for a handle without a type ends there. -/
theorem runFrom_catalogWith_bind_of_not_contains {α : Type}
    (h : (F.source.catalog s).contains t = false) (f : Catalog → Failable σ FactoryError α) :
    (F.catalogWith t >>= f).runFrom s = (.error (.ofHandle t), s) := by
  rw [runFrom_catalogWith_bind, FactoryError.ofHandle]
  by_cases ht : t = .absent
  · rw [if_pos ht, if_pos ht]
  · rw [if_neg ht, if_neg ht, if_pos h]

/-- Both searches come to nothing in a type without constructors. -/
theorem runFrom_find_of_ctorsOf_nil (e : Entry π) (ht : t ≠ .absent)
    (hc : (F.source.catalog s).contains t = true)
    (hnil : (F.source.catalog s).ctorsOf t = []) :
    (e.find F t request).runFrom s = (.ok none, s) := by
  have hexact : (F.source.catalog s).exactCtor? t request = none := by
    simp [Catalog.exactCtor?, hnil]
  have hcandidates : (F.source.catalog s).candidates F.policy.boxing t request = [] := by
    simp [Catalog.candidates, hnil]
  unfold Entry.find
  split
  · rw [F.runFrom_bestCtor?_of_not_exact ht hc request hexact]
    simp only [hcandidates]
    rfl
  · rw [F.runFrom_exactCtor? ht hc, hexact]

end Factory

namespace Store

variable {ω π : Type} {s s' : Store ω π} {t x : TypeHandle} {a : Datum π} {args : List (Datum π)}

/-! ## What asking for types adds -/

/-- The array types over the components in an argument list are stored, wherever there can be
one. -/
def Interned (s : Store ω π) (args : List (Datum π)) : Prop :=
  ∀ x items, Datum.array x items ∈ args → s.canHold x = true → ∃ t, s.array? x = some t

/-- A later store with more array types, all of them over components in an argument list. -/
structure GainsArrays (s : Store ω π) (args : List (Datum π)) (s' : Store ω π) : Prop where
  grows : s.Grows s'
  frame : s' = { s with types := s'.types }
  added : ∀ t, s'.catalog.contains t = true → s.catalog.contains t = true ∨
    ∃ x items, Datum.array x items ∈ args ∧ s'.catalog.component? t = some x

theorem GainsArrays.refl (s : Store ω π) (args : List (Datum π)) : s.GainsArrays args s :=
  ⟨.refl s, rfl, fun _ ht => .inl ht⟩

/-- Asking for the type of a datum leaves the store as it is, or adds an array type over the
component of an array that was not stored. -/
theorem typeOf_cases (s : Store ω π) (a : Datum π) :
    (s.Interned [a] ∧ ((source.typeOf a).run s).2 = s) ∨
      ∃ x items d, a = .array x items ∧ ¬s.Interned [a] ∧
        ((source.typeOf a).run s).2 = { s with types := s.types.push (s.arrayDecl x d) } := by
  cases a with
  | array x items =>
    have hrun : (source.typeOf (.array x items : Datum π)).run s = (arrayOf x).run s := rfl
    rw [hrun]
    obtain ⟨t, ht, h⟩ | ⟨hnew, d, -, hx, h⟩ | ⟨-, hx, h⟩ := s.arrayOf_cases x
    · refine .inl ⟨fun y js hmem _ => ?_, by rw [h]⟩
      cases List.mem_singleton.mp hmem
      exact ⟨t, ht⟩
    · refine .inr ⟨x, items, d, rfl, fun hint => ?_, by rw [h]⟩
      obtain ⟨t, ht⟩ := hint x items List.mem_cons_self hx
      rw [hnew] at ht
      cases ht
    · refine .inl ⟨fun y js hmem hy => ?_, by rw [h]⟩
      cases List.mem_singleton.mp hmem
      rw [hx] at hy
      cases hy
  | _ => exact .inl ⟨fun x items hmem => (by cases List.mem_singleton.mp hmem), rfl⟩

theorem gainsArrays_typeOf (s : Store ω π) (a : Datum π) :
    s.GainsArrays [a] ((source.typeOf a).run s).2 := by
  obtain ⟨-, h⟩ | ⟨x, items, d, rfl, -, h⟩ := s.typeOf_cases a
  · rw [h]
    exact .refl s [a]
  · rw [h]
    refine ⟨.pushType s _, rfl, fun t ht => ?_⟩
    obtain ⟨e, he⟩ := contains_iff.mp ht
    by_cases htn : t = s.nextType
    · subst htn
      exact .inr ⟨x, items, List.mem_singleton_self _,
        component?_eq_some.mpr ⟨_, s.decl?_push_nextType _, rfl⟩⟩
    · rw [decl?_push, if_neg htn] at he
      exact .inl (contains_iff.mpr ⟨e, he⟩)

/-- Asking for the types of an argument list adds array types over components in it, and does
nothing else. -/
theorem gainsArrays_typesOf (s : Store ω π) (args : List (Datum π)) :
    s.GainsArrays args ((source.typesOf args).run s).2 := by
  induction args generalizing s with
  | nil => exact .refl s []
  | cons a args ih =>
    have hfirst := s.gainsArrays_typeOf a
    have hrest := ih ((source.typeOf a).run s).2
    rw [TypeSource.run_typesOf_cons]
    refine ⟨hfirst.grows.trans hrest.grows, ?_, fun t ht => ?_⟩
    · rw [hrest.frame, hfirst.frame]
    · rcases hrest.added t ht with ht | ⟨x, items, hmem, hx⟩
      · rcases hfirst.added t ht with ht | ⟨x, items, hmem, hx⟩
        · exact .inl ht
        · rw [List.mem_singleton] at hmem
          subst hmem
          exact .inr ⟨x, items, List.mem_cons_self, hrest.grows.component? hx⟩
      · exact .inr ⟨x, items, List.mem_cons_of_mem _ hmem, hx⟩

theorem interned_cons : s.Interned (a :: args) ↔ s.Interned [a] ∧ s.Interned args := by
  constructor
  · intro h
    refine ⟨fun x items hmem => h x items ?_, fun x items hmem => h x items ?_⟩
    · rw [List.mem_singleton.mp hmem]
      exact List.mem_cons_self
    · exact List.mem_cons_of_mem _ hmem
  · rintro ⟨hfirst, hrest⟩ x items hmem
    rcases List.mem_cons.mp hmem with hmem | hmem
    · exact hfirst x items (List.mem_singleton.mpr hmem)
    · exact hrest x items hmem

/-- A type that was added stays. -/
theorem not_grows_push (added : TypeDecl) : ¬Grows { s with types := s.types.push added } s := by
  intro h
  have hlt := index_lt_nextType (h.decl? (s.decl?_push_nextType added))
  exact Nat.lt_irrefl _ hlt

/-- Asking for the types of an argument list leaves no trace exactly if the array types are
stored already. -/
theorem run_typesOf_eq_self_iff : ((source.typesOf args).run s).2 = s ↔ s.Interned args := by
  induction args with
  | nil => simp [Interned, show ((source.typesOf ([] : List (Datum π))).run s).2 = s from rfl]
  | cons a args ih =>
    rw [TypeSource.run_typesOf_cons, interned_cons]
    obtain ⟨hint, h⟩ | ⟨x, items, d, -, hnot, h⟩ := s.typeOf_cases a
    · rw [h, ih]
      exact ⟨fun hargs => ⟨hint, hargs⟩, fun hargs => hargs.2⟩
    · refine ⟨fun hself => ?_, fun hargs => absurd hargs.1 hnot⟩
      have hgrows := (gainsArrays_typesOf ((source.typeOf a).run s).2 args).grows
      rw [hself, h] at hgrows
      exact absurd hgrows (not_grows_push _)

section Request

variable (o : Opener) (policy : Policy) (e : Entry π)

/-- Settling the types of a construction leaves no trace exactly if nothing is asked for that is
not stored. -/
theorem run_request_eq_self_iff :
    ((e.request (factoryWith o policy)).run s).2 = s ↔ (e.infers = true → s.Interned e.args) := by
  cases e with
  | best args | exact args =>
    refine ⟨fun hself _ => ?_, fun hint => ?_⟩
    · exact run_typesOf_eq_self_iff.mp hself
    · exact run_typesOf_eq_self_iff.mpr (hint rfl)
  | bestAs args request | exactAs args request =>
    simp only [Entry.infers, Bool.false_eq_true, false_imp_iff, iff_true]
    rfl

theorem gainsArrays_request :
    s.GainsArrays e.args ((e.request (factoryWith o policy)).run s).2 := by
  cases e with
  | best args | exact args => exact s.gainsArrays_typesOf args
  | bestAs args request | exactAs args request => exact .refl s args

theorem WellFormed.steps_request (hs : s.WellFormed) :
    s.OwnSteps ((e.request (factoryWith o policy)).run s).2 := by
  cases e with
  | best args | exact args => exact source.keeps_typesOf evolves_arrayOf args s hs
  | bestAs args request | exactAs args request => exact .refl s

end Request

/-! ## Rejection -/

/-- Array types have no constructors. -/
theorem WellFormed.ctorsOf_of_component? (hs : s.WellFormed)
    (hx : s.catalog.component? t = some x) : s.catalog.ctorsOf t = [] := by
  obtain ⟨d, hd, hshape⟩ := component?_eq_some.mp hx
  have hnil : d.ctors = [] := by
    by_contra hne
    have hclass := (hs.decls hd).ctors_class hne
    rw [hshape] at hclass
    cases hclass
  simp [Catalog.ctorsOf, hd, hnil]

/-- A computation reports that the handle names no type, and has left no trace. -/
def Rejects {α : Type} (x : Failable (Store ω π) FactoryError α) (t : TypeHandle) (s : Store ω π) :
    Prop := x.runFrom s = (.error (.ofHandle t), s)

/-- How a construction ends that is asked for a handle without a type. -/
theorem WellFormed.make_of_not_contains (hs : s.WellFormed)
    (ht : s.catalog.contains t = false) (o : Opener)
    (policy : Policy) (e : Entry π) :
    let F := factoryWith o policy
    let r := (e.request F).run s
    (e.make F t).runFrom s =
      (.error (if r.2.catalog.contains t then
          .notFound (r.2.catalog.nameOf t) (r.2.catalog.signature r.1)
        else .ofHandle t), r.2) := by
  intro F r
  have hcall : (e.call F t).runFrom s = (e.callFor F t r.1).runFrom r.2 := e.runFrom_call ..
  rw [e.make_eq, Failable.runFrom_bind, hcall]
  cases hc : r.2.catalog.contains t with
  | false =>
    have hfind : (e.find F t r.1).runFrom r.2 = (.error (.ofHandle t), r.2) := by
      unfold Entry.find
      split
      · exact F.runFrom_catalogWith_bind_of_not_contains hc _
      · exact F.runFrom_catalogWith_bind_of_not_contains hc _
    rw [e.runFrom_callFor_of_error hfind]
    rfl
  | true =>
    -- the handle has become that of an array type, which has no constructors
    obtain hold | ⟨x, items, -, hx⟩ := (gainsArrays_request o policy e).added t hc
    · rw [ht] at hold
      cases hold
    · have hnil := ((hs.steps_request o policy e).wellFormed hs).ctorsOf_of_component? hx
      rw [e.runFrom_callFor_of_none
        (F.runFrom_find_of_ctorsOf_nil e (ne_absent_of_contains hc) hc hnil)]
      rfl

/-- Both searches reject a handle without a type. A construction does so exactly if it asks for no
array type that is not stored; otherwise these are stored, and if one of them gets the handle in
question, no constructor is found in it. -/
theorem Reachable.rejects_iff (hs : s.Reachable) (ht : s.catalog.contains t = false) (o : Opener)
    (policy : Policy) :
    let F := factoryWith o policy
    (∀ request, Rejects (F.exactCtor? t request) t s ∧ Rejects (F.bestCtor? t request) t s) ∧
    ∀ e : Entry π,
      (Rejects (e.make F t) t s ↔ (e.infers = true → s.Interned e.args)) ∧
      ∃ request s', (e.request F).run s = (request, s') ∧ s.GainsArrays e.args s' ∧
        (e.make F t).runFrom s =
          (.error (if s'.catalog.contains t then
              .notFound (s'.catalog.nameOf t) (s'.catalog.signature request)
            else .ofHandle t), s') := by
  intro F
  refine ⟨fun request => ⟨?_, ?_⟩, fun e => ⟨?_, ?_⟩⟩
  · exact F.runFrom_catalogWith_bind_of_not_contains ht _
  · exact F.runFrom_catalogWith_bind_of_not_contains ht _
  · have hmake := hs.wellFormed.make_of_not_contains ht o policy e
    rw [← run_request_eq_self_iff o policy e, Rejects, hmake]
    constructor
    · intro h
      exact congrArg Prod.snd h
    · intro hself
      rw [hself, ht]
      rfl
  · exact ⟨_, _, rfl, gainsArrays_request o policy e,
      hs.wellFormed.make_of_not_contains ht o policy e⟩

/-- Handle 104 names nothing among the kennels. An instance of it is refused for an animal, and
without a trace, as for an array of animals; it is refused for an array of dogs as well, but for
another reason and with the array type over dogs stored under that handle. -/
theorem rejects_iff_kennel :
    kennels.Reachable ∧ kennels.catalog.contains ⟨104⟩ = false ∧
    Rejects ((Entry.best [.array ⟨100⟩ twoDogs]).make (factory {}) ⟨104⟩) ⟨104⟩ kennels ∧
    ¬Rejects ((Entry.best [.array ⟨101⟩ twoDogs]).make (factory {}) ⟨104⟩) ⟨104⟩ kennels := by
  have hreach := kennels_ownReachable.reachable
  have hmissing : kennels.catalog.contains ⟨104⟩ = false := by decide
  have hiff := (hreach.rejects_iff hmissing .self {}).2
  refine ⟨hreach, hmissing, (hiff (.best [.array ⟨100⟩ twoDogs])).1.mpr ?_, ?_⟩
  · intro _ x items hmem _
    cases List.mem_singleton.mp hmem
    exact ⟨⟨102⟩, rfl⟩
  · intro hrejects
    have hint := (hiff (.best [.array ⟨101⟩ twoDogs])).1.mp hrejects rfl
    obtain ⟨t, ht⟩ := hint ⟨101⟩ twoDogs List.mem_cons_self (by decide)
    cases ht

/-- Asked of a store with nothing but the built-in types, for an array of numbers: the array type
is stored, and gets the handle that named nothing, or the handle that names nothing is refused
after that. -/
theorem not_rejects_unknown :
    let s : Store Journal Nat := { serial := 1, world := [] }
    let args : List (Datum Nat) := [.array .int []]
    s.Reachable ∧ s.catalog.contains ⟨100⟩ = false ∧ s.catalog.contains .absent = false ∧
    ¬Rejects ((factory {}).make ⟨100⟩ args) ⟨100⟩ s ∧
    (((factory {}).make ⟨100⟩ args).runFrom s).1 = .error (.notFound "int[]" "(int[])") ∧
    ¬Rejects ((factory {}).make .absent args) .absent s ∧
    (((factory {}).make .absent args).runFrom s).1 = .error .noType ∧
    (((factory {}).make .absent args).runFrom s).2.size = s.size + 1 := by
  intro s args
  have hfound : (((factory {}).make ⟨100⟩ args).runFrom s).1 =
      .error (.notFound "int[]" "(int[])") := rfl
  have hsize : (((factory {}).make .absent args).runFrom s).2.size = s.size + 1 := rfl
  refine ⟨.initial 1 [], rfl, rfl, fun h => ?_, hfound, fun h => ?_, rfl, hsize⟩
  · rw [h] at hfound
    cases hfound
  · rw [h] at hsize
    exact absurd hsize (Nat.ne_of_lt (Nat.lt_succ_self _))

end Store

end BestFit
