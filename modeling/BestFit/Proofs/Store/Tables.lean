import BestFit.Proofs.Store.Admission
import BestFit.Proofs.Store.Names
import Mathlib.Data.List.Basic

/-!
# The layout of a store

A store keeps types and constructors in two arrays, counts handles by their sizes and reads
everything else off them. `Tables` is a store as it is laid out: a table for each kind of
question, written to as types come in, and two counters of thirty-two bits that go round at the
end. `Represents` says that tables answer as a store does. `Represents.apply` says that they
answer alike to one operation, and go on doing so, as long as the handles last. Main statement:
`represents_run`, for any number of operations from the start; so every reachable store with few
enough handles is laid out in this way (`exists_represents`). The bound cannot be moved: see
`Represents.arrayOf_of_full`.
-/
namespace BestFit

/-- A store as it is laid out. -/
structure Tables (ω π : Type) where
  types : Std.HashMap TypeHandle TypeDecl := {}
  /-- The type that each name stands for. -/
  names : Std.HashMap String TypeHandle := {}
  /-- The array type over each component that was asked for. -/
  arrays : Std.HashMap TypeHandle TypeHandle := {}
  ctors : Std.HashMap CtorHandle (StoredCtor ω π) := {}
  /-- The index that the next type gets. -/
  nextType : UInt32 := .ofNat TypeHandle.firstDeclared
  /-- The index that the next constructor gets. -/
  nextCtor : UInt32 := .ofNat CtorHandle.firstDeclared

namespace Tables

variable {ω π : Type}

/-- The tables with nothing but the built-in types. -/
def initial : Tables ω π where
  types := .ofList (Builtin.decls.map fun d => (d.handle, d))
  names := .ofList (Builtin.decls.map fun d => (d.name, d.handle))

/-- What the tables know at present. -/
def catalog (r : Tables ω π) : Catalog where
  decl? t := r.types[t]?
  ctor? k := r.ctors[k]?.map StoredCtor.ctor
  handles := r.types.keys
  mem_handles {t d} h := by
    rw [Std.HashMap.mem_keys, Std.HashMap.mem_iff_isSome_getElem?, h]
    rfl

/-- Takes the next index for a type. -/
def allocateType : StateM (Tables ω π) TypeHandle := fun r =>
  (⟨r.nextType.toNat⟩, { r with nextType := r.nextType + 1 })

/-- Takes the next index for a constructor. -/
def allocateCtor : StateM (Tables ω π) CtorHandle := fun r =>
  (⟨r.nextCtor.toNat⟩, { r with nextCtor := r.nextCtor + 1 })

/-- Stores the constructors of a type in their order, and gives their handles. -/
def storeCtors (owner : TypeHandle) :
    List (CtorDefinition ω π) → StateM (Tables ω π) (List CtorHandle)
  | [] => return []
  | k :: ks => do
      let j ← allocateCtor
      modify fun r => { r with ctors := r.ctors.insert j (k.storedAs j owner) }
      let js ← storeCtors owner ks
      return j :: js

/-- Stores a definition that passed the checks. -/
def enter (d : Definition ω π) : StateM (Tables ω π) TypeHandle := do
  let t ← allocateType
  let ctors ← storeCtors t d.ctors
  modify fun r => { r with
    types := r.types.insert t (d.declaredAs t ctors)
    names := r.names.insert d.name t }
  return t

/-- Adds a definition and gives the handle of its type. -/
def declare (r : Tables ω π) (d : Definition ω π) :
    Except DeclareError (TypeHandle × Tables ω π) := do
  r.catalog.check d
  if r.names.contains d.name then throw (.nameTaken d.name)
  return (enter d).run r

/-- Stores the array type over a component declared as `d`. It gives way to whatever has its
name already. -/
def addArray (component : TypeHandle) (d : TypeDecl) : StateM (Tables ω π) TypeHandle := do
  let t ← allocateType
  let added := TypeDecl.arrayOver t component d
  modify fun r => { r with
    types := r.types.insert t added
    names := r.names.insertIfNew added.name t
    arrays := r.arrays.insert component t }
  return t

/-- The array type over a component, stored when it is first asked for. -/
def arrayOf (component : TypeHandle) : StateM (Tables ω π) TypeHandle := fun r =>
  match r.arrays[component]? with
  | some t => (t, r)
  | none =>
      match r.types[component]? with
      | none => (.absent, r)
      | some d =>
          if component = .null ∨ component = .void then (.absent, r)
          else (addArray component d).run r

/-- The tables that an operation leaves behind. Unlocking and instantiating read them only. -/
def apply (r : Tables ω π) : Store.Operation ω π → Tables ω π
  | .declare d =>
      match r.declare d with
      | .ok (_, r') => r'
      | .error _ => r
  | .arrayOf x => ((arrayOf x).run r).2
  | .unlock _ | .instantiate .. | .elsewhere _ => r

/-- What is answered to an operation that can add a type. -/
def answer (r : Tables ω π) : Store.Operation ω π → Option (Except DeclareError TypeHandle)
  | .declare d => some ((r.declare d).map Prod.fst)
  | .arrayOf x => some (.ok ((arrayOf x).run r).1)
  | .unlock _ | .instantiate .. | .elsewhere _ => none

/-- The tables that operations leave behind, one after the other. -/
def run (r : Tables ω π) (ops : List (Store.Operation ω π)) : Tables ω π := ops.foldl apply r

/-- Tables that answer as a store does. -/
structure Represents (r : Tables ω π) (s : Store ω π) : Prop where
  types : ∀ t, r.types[t]? = s.decl? t
  names : ∀ name, r.names[name]? = s.lookup name
  arrays : ∀ x, r.arrays[x]? = s.array? x
  ctors : ∀ k, r.ctors[k]? = s.entry? k
  size : r.types.size = s.size
  nextType : r.nextType = .ofNat s.nextType.index
  nextCtor : r.nextCtor = .ofNat (s.nextCtor 0).index

end Tables

namespace Store

variable {ω π : Type} {s s' : Store ω π}

/-- What is answered to an operation that can add a type. -/
def answer (s : Store ω π) : Operation ω π → Option (Except DeclareError TypeHandle)
  | .declare d => some ((s.declare d).map Prod.fst)
  | .arrayOf x => some (.ok ((arrayOf x).run s).1)
  | .unlock _ | .instantiate .. | .elsewhere _ => none

/-- The store that operations leave behind, one after the other. -/
def run (s : Store ω π) (ops : List (Operation ω π)) : Store ω π := ops.foldl apply s

/-- All handles that were given fit in thirty-two bits. -/
structure HandlesFit (s : Store ω π) : Prop where
  types : s.nextType.index ≤ UInt32.size
  ctors : (s.nextCtor 0).index ≤ UInt32.size

/-! ## Counting -/

namespace Grows

variable (h : s.Grows s')
include h

/-- The last type is still there, so its handle is not due again. -/
theorem nextType_le : s.nextType.index ≤ s'.nextType.index := by
  rcases Nat.eq_zero_or_pos s.types.size with hsize | hsize
  · simp [nextType, hsize]
  · have hlast := (s.decl?_types (s.types.size - 1)).trans (Array.getElem?_eq_getElem (by omega))
    have hlt := index_lt_nextType (h.decl? hlast)
    simp only [nextType] at hlt ⊢
    omega

/-- The same for constructors. -/
theorem nextCtor_le : (s.nextCtor 0).index ≤ (s'.nextCtor 0).index := by
  rcases Nat.eq_zero_or_pos s.ctors.size with hsize | hsize
  · simp [nextCtor, hsize]
  · have hlast : s.entry? ⟨CtorHandle.firstDeclared + (s.ctors.size - 1)⟩ =
        some s.ctors[s.ctors.size - 1] := by
      have hpresent : CtorHandle.isPresent ⟨CtorHandle.firstDeclared + (s.ctors.size - 1)⟩ = true :=
        decide_eq_true (Nat.le_add_right _ _)
      rw [Store.entry?, if_pos hpresent, Nat.add_sub_cancel_left, Array.getElem?_eq_getElem (by omega)]
    have hlt := index_lt_nextCtor (h.entry? hlast)
    simp only [nextCtor] at hlt ⊢
    omega

/-- Where the later handles fit, the earlier ones did. -/
theorem handlesFit (hfits : s'.HandlesFit) : s.HandlesFit where
  types := Nat.le_trans h.nextType_le hfits.types
  ctors := Nat.le_trans h.nextCtor_le hfits.ctors

end Grows

theorem Grows.run (s : Store ω π) (ops : List (Operation ω π)) : s.Grows (s.run ops) := by
  induction ops generalizing s with
  | nil => exact .refl s
  | cons op ops ih => exact (Grows.apply s op).trans (ih (s.apply op))

/-- A reachable store is what some operations leave behind. -/
theorem Reachable.exists_run (h : s.Reachable) :
    ∃ serial world ops, s = Store.run { serial, world } ops := by
  induction h with
  | initial serial world => exact ⟨serial, world, [], rfl⟩
  | apply _ op ih =>
    obtain ⟨serial, world, ops, rfl⟩ := ih
    refine ⟨serial, world, ops ++ [op], ?_⟩
    rw [Store.run, Store.run, List.foldl_append]
    rfl

end Store

namespace Builtin

theorem pairwise_handle : decls.Pairwise fun d e => d.handle ≠ e.handle := by decide

theorem pairwise_name : decls.Pairwise fun d e => d.name ≠ e.name := by decide

end Builtin

/-! ## The checks -/

/-- The checks read nothing but declarations. -/
theorem Catalog.check_congr {ω π : Type} {c c' : Catalog} (h : c.decl? = c'.decl?)
    (d : Definition ω π) : c.check d = c'.check d := by
  have hcontains : c.contains = c'.contains := by
    funext t
    rw [contains, contains, h]
  have hcan : c.canHold = c'.canHold := by
    funext t
    rw [canHold, canHold, hcontains]
  have hcomponent : c.component? = c'.component? := by
    funext t
    rw [component?, component?, h]
  have hname : c.nameOf = c'.nameOf := by
    funext t
    simp only [nameOf, h]
  have hctor : ∀ earlier (k : CtorDefinition ω π),
      c.checkCtor d.name earlier k = c'.checkCtor d.name earlier k := by
    intro earlier k
    simp only [checkCtor, signature, hcan, hcomponent, hname]
  have hctors : ∀ earlier (ks : List (CtorDefinition ω π)),
      c.checkCtors d.name earlier ks = c'.checkCtors d.name earlier ks := by
    intro earlier ks
    induction ks generalizing earlier with
    | nil => rfl
    | cons k ks ih => simp only [checkCtors, hctor, ih]
  have hsuperclass : c.checkSuperclass d.name = c'.checkSuperclass d.name := by
    funext t
    simp only [checkSuperclass, h]
  have hinterface : c.checkInterface d.name = c'.checkInterface d.name := by
    funext t
    simp only [checkInterface, h]
  have henclosing : c.checkEnclosing d.name = c'.checkEnclosing d.name := by
    funext t
    simp only [checkEnclosing, hcontains]
  simp only [check, hsuperclass, hinterface, henclosing, hctors]

namespace Tables

variable {ω π : Type} {r : Tables ω π} {s s' : Store ω π}

/-! ## Storing constructors -/

/-- The tables with one more constructor. -/
def storeCtor (r : Tables ω π) (owner : TypeHandle) (j : CtorHandle) (k : CtorDefinition ω π) :
    Tables ω π :=
  { r with ctors := r.ctors.insert j (k.storedAs j owner), nextCtor := r.nextCtor + 1 }

theorem getElem?_storeCtor (r : Tables ω π) (owner : TypeHandle) (i j : CtorHandle)
    (k : CtorDefinition ω π) :
    (r.storeCtor owner i k).ctors[j]? =
      if j = i then some (k.storedAs j owner) else r.ctors[j]? := by
  rw [storeCtor, Std.HashMap.getElem?_insert]
  by_cases h : j = i
  · rw [if_pos h, h, if_pos (beq_self_eq_true _)]
  · rw [if_neg h, if_neg (by simpa using Ne.symm h)]

theorem run_storeCtors_cons (r : Tables ω π) (owner : TypeHandle) (k : CtorDefinition ω π)
    (ks : List (CtorDefinition ω π)) :
    (storeCtors owner (k :: ks)).run r =
      let rest := (storeCtors owner ks).run (r.storeCtor owner ⟨r.nextCtor.toNat⟩ k)
      (⟨r.nextCtor.toNat⟩ :: rest.1, rest.2) := rfl

/-- Constructors are stored from the next index on, which counts them. -/
theorem run_storeCtors (owner : TypeHandle) (ks : List (CtorDefinition ω π)) {n : Nat}
    (hn : r.nextCtor = .ofNat n) (hfit : n + ks.length ≤ UInt32.size) :
    ∃ ctors, (storeCtors owner ks).run r =
        ((List.range ks.length).map fun i => ⟨n + i⟩,
          { r with ctors, nextCtor := .ofNat (n + ks.length) }) ∧
      ∀ j : CtorHandle, ctors[j]? =
        if j.index < n then r.ctors[j]?
        else (ks[j.index - n]?.map (·.storedAs j owner)).or r.ctors[j]? := by
  induction ks generalizing r n with
  | nil =>
    refine ⟨r.ctors, ?_, fun j => by simp⟩
    rw [List.length_nil, Nat.add_zero, ← hn]
    rfl
  | cons k ks ih =>
    rw [List.length_cons] at hfit ⊢
    have hj : r.nextCtor.toNat = n := by
      have hlt : n < UInt32.size := by omega
      rw [hn, UInt32.toNat_ofNat', Nat.mod_eq_of_lt hlt]
    have hnext : (r.storeCtor owner ⟨n⟩ k).nextCtor = .ofNat (n + 1) := by
      rw [UInt32.ofNat_add, ← hn]
      rfl
    obtain ⟨ctors, hrun, hctors⟩ := ih hnext (by omega)
    refine ⟨ctors, ?_, fun j => ?_⟩
    · have hlist : (⟨n⟩ :: (List.range ks.length).map fun i => ⟨n + 1 + i⟩ : List CtorHandle) =
          (List.range (ks.length + 1)).map fun i => ⟨n + i⟩ := by
        simp [List.range_succ_eq_map, Function.comp_def, Nat.add_assoc, Nat.add_comm 1]
      rw [run_storeCtors_cons, hj, hrun, ← hlist,
        show n + 1 + ks.length = n + (ks.length + 1) by omega]
      rfl
    · rw [hctors, getElem?_storeCtor]
      obtain ⟨i⟩ := j
      simp only [CtorHandle.mk.injEq]
      rcases Nat.lt_trichotomy i n with hlt | rfl | hgt
      · rw [if_pos (by omega), if_neg (by omega), if_pos hlt]
      · rw [if_pos (by omega), if_pos rfl, if_neg (by omega), Nat.sub_self, List.getElem?_cons_zero,
          Option.map_some, Option.some_or]
      · rw [if_neg (by omega), if_neg (by omega), if_neg (by omega),
          show i - n = i - (n + 1) + 1 by omega, List.getElem?_cons_succ]

/-! ## The built-in types -/

/-- A table filled from declarations that differ in the key answers as a search does. -/
theorem getElem?_ofList {α β : Type} [BEq α] [LawfulBEq α] [Hashable α] {key : TypeDecl → α}
    {value : TypeDecl → β} {ds : List TypeDecl} (hds : ds.Pairwise fun d e => key d ≠ key e)
    (a : α) :
    (Std.HashMap.ofList (ds.map fun d => (key d, value d)))[a]? =
      (ds.find? (key · == a)).map value := by
  cases hd : ds.find? (key · == a) with
  | none =>
    refine Std.HashMap.getElem?_ofList_of_contains_eq_false ?_
    rw [List.find?_eq_none] at hd
    simpa [← Bool.not_eq_true] using hd
  | some d =>
    have hkey : key d = a := by simpa using List.find?_some hd
    refine Std.HashMap.getElem?_ofList_of_mem (beq_iff_eq.mpr hkey) ?_
      (List.mem_map.mpr ⟨d, List.mem_of_find?_eq_some hd, rfl⟩)
    rw [List.pairwise_map]
    exact hds.imp fun hne => beq_eq_false_iff_ne.mpr hne

/-- Tables that were just set up answer as a store does that was just set up. -/
theorem represents_initial (serial : Nat) (world : ω) :
    (initial : Tables ω π).Represents { serial, world } where
  types t := by
    rw [initial, getElem?_ofList Builtin.pairwise_handle, Option.map_id']
    unfold Store.decl?
    split
    · rfl
    · next hlow =>
      rw [List.find?_eq_none.mpr]
      · rfl
      · intro d hd h
        obtain rfl := beq_iff_eq.mp h
        exact hlow (Builtin.decls_links d hd).1
  names name := by
    rw [initial, getElem?_ofList Builtin.pairwise_name, Store.lookup, Store.decls, Array.toList_empty,
      List.append_nil]
  arrays x := Std.HashMap.getElem?_empty
  ctors k := by
    have hnone : (initial : Tables ω π).ctors[k]? = none := Std.HashMap.getElem?_empty
    rw [hnone, Store.entry?]
    split <;> rfl
  size := by
    rw [initial, Std.HashMap.size_ofList]
    · simp [Store.size, Store.decls]
    · rw [List.pairwise_map]
      exact Builtin.pairwise_handle.imp fun hne => beq_eq_false_iff_ne.mpr hne
  nextType := rfl
  nextCtor := rfl

/-! ## One operation -/

theorem run_enter_eq (r : Tables ω π) (d : Definition ω π) :
    (enter d).run r =
      let t : TypeHandle := ⟨r.nextType.toNat⟩
      let stored := (storeCtors t d.ctors).run { r with nextType := r.nextType + 1 }
      (t, { stored.2 with
        types := stored.2.types.insert t (d.declaredAs t stored.1)
        names := stored.2.names.insert d.name t }) := rfl

namespace Represents

variable (h : r.Represents s)
include h

/-- The counter names the handle that is due, as long as that fits. -/
theorem typeHandle_eq (hfit : s.nextType.index < UInt32.size) :
    (⟨r.nextType.toNat⟩ : TypeHandle) = s.nextType := by
  rw [h.nextType, UInt32.toNat_ofNat', Nat.mod_eq_of_lt hfit]

/-- The table of types after one more type. -/
theorem getElem?_insert (added : TypeDecl) (t : TypeHandle) :
    (r.types.insert s.nextType added)[t]? =
      Store.decl? { s with types := s.types.push added } t := by
  rw [Std.HashMap.getElem?_insert, Store.decl?_push, h.types]
  by_cases ht : t = s.nextType
  · rw [if_pos ht, ht, if_pos (beq_self_eq_true _)]
  · rw [if_neg ht, if_neg (by simpa using Ne.symm ht)]

theorem size_insert (added : TypeDecl) :
    (r.types.insert s.nextType added).size =
      Store.size { s with types := s.types.push added } := by
  have hfree : s.nextType ∉ r.types := by
    rw [Std.HashMap.mem_iff_isSome_getElem?, h.types]
    intro hsome
    obtain ⟨d, hd⟩ := Option.isSome_iff_exists.mp hsome
    exact Nat.lt_irrefl _ (Store.index_lt_nextType hd)
  rw [Std.HashMap.size_insert, if_neg hfree, h.size]
  simp [Store.size, Store.decls, Nat.add_assoc]

theorem check_eq (d : Definition ω π) : r.catalog.check d = s.catalog.check d :=
  Catalog.check_congr (funext h.types) d

/-- A definition meets the same checks. -/
theorem declare_eq (d : Definition ω π) :
    r.declare d = (s.check d).map fun _ => (enter d).run r := by
  have hname : r.names.contains d.name = (s.lookup d.name).isSome := by
    rw [Std.HashMap.contains_eq_isSome_getElem?, h.names]
  unfold Tables.declare Store.check
  rw [h.check_eq, hname]
  cases s.catalog.check d with
  | error e => rfl
  | ok _ => cases (s.lookup d.name).isSome <;> rfl

theorem nextType_succ : r.nextType + 1 = .ofNat (s.nextType.index + 1) := by
  rw [UInt32.ofNat_add, ← h.nextType]
  rfl

/-- A definition that was admitted is stored under the handles that are due. -/
theorem run_enter {d : Definition ω π} (hd : s.Admits d) (hfits : (s.declared d).HandlesFit) :
    ∃ r', (enter d).run r = (s.nextType, r') ∧ r'.Represents (s.declared d) := by
  have hadds := Store.adds_declared hd
  obtain ⟨htypes, hlast⟩ := hfits
  rw [hadds.nextType] at htypes
  have htype := h.typeHandle_eq htypes
  have hnext : (s.nextCtor 0).index + d.ctors.length = ((s.declared d).nextCtor 0).index := by
    rw [hadds.nextCtor]
    rfl
  obtain ⟨ctors, hrun, hctors⟩ := run_storeCtors
    (r := { r with nextType := r.nextType + 1 }) s.nextType d.ctors h.nextCtor (hnext ▸ hlast)
  have henter : (enter d).run r = (s.nextType,
      { r with
        types := r.types.insert s.nextType (s.declOf d)
        names := r.names.insert d.name s.nextType
        ctors
        nextType := r.nextType + 1
        nextCtor := .ofNat ((s.nextCtor 0).index + d.ctors.length) }) := by
    simp only [run_enter_eq, htype, hrun]
    rfl
  refine ⟨_, henter, ?_⟩
  exact {
    types := h.getElem?_insert (s.declOf d)
    names := by
      intro name
      rw [Std.HashMap.getElem?_insert, h.names, s.lookup_declared]
      by_cases hname : d.name = name
      · rw [if_pos (beq_iff_eq.mpr hname), if_pos hname, ← hname, hd.name, Option.none_or]
      · rw [if_neg (by simpa using hname), if_neg hname, Option.or_none]
    arrays := fun x => (h.arrays x).trans (s.array?_declared d x).symm
    ctors := by
      intro j
      rw [hctors, s.entry?_declared]
      by_cases hj : j.index < (s.nextCtor 0).index
      · rw [if_pos hj, if_pos hj]
        exact h.ctors j
      · have hfree : r.ctors[j]? = none :=
          (h.ctors j).trans (Store.entry?_eq_none (Nat.le_of_not_lt hj))
        rw [if_neg hj, if_neg hj, hfree, Option.or_none]
        rfl
    size := h.size_insert (s.declOf d)
    nextType := by
      rw [hadds.nextType]
      exact h.nextType_succ
    nextCtor := by rw [hnext] }

/-- Tables answer to a definition as the store does. -/
theorem declare (d : Definition ω π) (hfits : (s.apply (.declare d)).HandlesFit) :
    r.answer (.declare d) = s.answer (.declare d) ∧
      (r.apply (.declare d)).Represents (s.apply (.declare d)) := by
  have hr := h.declare_eq d
  cases hd : s.check d with
  | error e =>
    rw [hd] at hr
    have hs : s.declare d = .error e := by
      rw [Store.declare, hd]
      rfl
    simp only [answer, Store.answer, apply, Store.apply, hr, hs]
    exact ⟨rfl, h⟩
  | ok _ =>
    have hs : s.declare d = .ok (s.nextType, s.declared d) :=
      Store.declare_eq_ok.mpr ⟨Store.check_eq_ok.mp hd, rfl, rfl⟩
    simp only [Store.apply, hs] at hfits
    obtain ⟨r', hrun, hr'⟩ := h.run_enter (Store.check_eq_ok.mp hd) hfits
    rw [hd] at hr
    simp only [answer, Store.answer, apply, Store.apply, hr, hs, hrun, Except.map, true_and]
    exact hr'

/-- An array type that is new is stored under the handle that is due. -/
theorem run_addArray {x : TypeHandle} {d : TypeDecl} (hnew : s.array? x = none)
    (hfit : s.nextType.index < UInt32.size) :
    ∃ r', (addArray x d).run r = (s.nextType, r') ∧
      r'.Represents { s with types := s.types.push (s.arrayDecl x d) } := by
  have hrun : (addArray x d).run r = (s.nextType,
      { r with
        types := r.types.insert s.nextType (s.arrayDecl x d)
        names := r.names.insertIfNew (s.arrayDecl x d).name s.nextType
        arrays := r.arrays.insert x s.nextType
        nextType := r.nextType + 1 }) := by
    rw [Store.arrayDecl, ← h.typeHandle_eq hfit]
    rfl
  refine ⟨_, hrun, ?_⟩
  exact {
    types := h.getElem?_insert (s.arrayDecl x d)
    names := by
      intro name
      have hmem : name ∈ r.names ↔ (s.lookup name).isSome = true := by
        rw [Std.HashMap.mem_iff_isSome_getElem?, h.names]
      rw [Std.HashMap.getElem?_insertIfNew, h.names, s.lookup_push]
      by_cases hname : (s.arrayDecl x d).name = name
      · rw [hname, if_pos rfl]
        -- whatever has the name already keeps it
        cases hlookup : s.lookup name with
        | some u => rw [if_neg (by simp [hmem, hlookup]), Option.some_or]
        | none =>
          rw [if_pos (by simp [hmem, hlookup]), Option.none_or]
          rfl
      · rw [if_neg (by simp [hname]), if_neg hname, Option.or_none]
    arrays := by
      intro y
      have hcomponent : (s.arrayDecl x d).component? = some x := rfl
      rw [Std.HashMap.getElem?_insert, h.arrays, s.array?_push, hcomponent]
      by_cases hy : x = y
      · rw [if_pos (beq_iff_eq.mpr hy), if_pos (congrArg some hy), ← hy, hnew, Option.none_or]
        rfl
      · rw [if_neg (by simpa using hy), if_neg (by simpa using hy), Option.or_none]
    ctors := h.ctors
    size := h.size_insert (s.arrayDecl x d)
    nextType := by
      rw [h.nextType_succ]
      simp [Store.nextType, Nat.add_assoc]
    nextCtor := h.nextCtor }

/-- An array type that is there is given. -/
theorem run_arrayOf_known {x t : TypeHandle} (ht : s.array? x = some t) :
    (Tables.arrayOf x).run r = (t, r) := by
  have harray := h.arrays x
  rw [ht] at harray
  simp only [Tables.arrayOf, StateT.run, harray]

/-- An array type that is new is stored. -/
theorem run_arrayOf_new {x : TypeHandle} {d : TypeDecl} (hnew : s.array? x = none)
    (hd : s.decl? x = some d) (hx : s.canHold x = true) :
    (Tables.arrayOf x).run r = (addArray x d).run r := by
  obtain ⟨hnull, hvoid, -⟩ := Store.canHold_iff.mp hx
  have harray := h.arrays x
  have hdecl := h.types x
  rw [hnew] at harray
  rw [hd] at hdecl
  simp only [Tables.arrayOf, StateT.run, harray, hdecl, hnull, hvoid, or_self, if_false]

/-- There is no array type over what cannot be held. -/
theorem run_arrayOf_refused {x : TypeHandle} (hnew : s.array? x = none)
    (hx : s.canHold x = false) : (Tables.arrayOf x).run r = (.absent, r) := by
  have harray := h.arrays x
  have hdecl := h.types x
  rw [hnew] at harray
  simp only [Tables.arrayOf, StateT.run, harray, hdecl]
  cases hd : s.decl? x with
  | none => rfl
  | some d =>
    refine if_pos ?_
    by_contra hno
    obtain ⟨hnull, hvoid⟩ := not_or.mp hno
    rw [Store.canHold_iff.mpr ⟨hnull, hvoid, Store.contains_iff.mpr ⟨d, hd⟩⟩] at hx
    cases hx

/-- Tables answer to a request for an array type as the store does. -/
theorem arrayOf (x : TypeHandle) (hfits : (s.apply (.arrayOf x)).HandlesFit) :
    r.answer (.arrayOf x) = s.answer (.arrayOf x) ∧
      (r.apply (.arrayOf x)).Represents (s.apply (.arrayOf x)) := by
  simp only [answer, Store.answer, apply, Store.apply] at hfits ⊢
  obtain ⟨t, ht, hs⟩ | ⟨hnew, d, hd, hx, hs⟩ | ⟨hnew, hx, hs⟩ := s.arrayOf_cases x
  · rw [h.run_arrayOf_known ht, hs]
    exact ⟨rfl, h⟩
  · rw [hs] at hfits ⊢
    have hfit := hfits.types
    simp only [Store.nextType, Array.size_push] at hfit
    obtain ⟨r', hrun, hr'⟩ := h.run_addArray (d := d) hnew hfit
    rw [h.run_arrayOf_new hnew hd hx, hrun]
    exact ⟨rfl, hr'⟩
  · rw [h.run_arrayOf_refused hnew hx, hs]
    exact ⟨rfl, h⟩

/-- What only unlocks or makes instances leaves the tables alone. -/
theorem congr (htypes : s'.types = s.types) (hctors : s'.ctors = s.ctors) :
    r.Represents s' := by
  obtain ⟨serial, types, ctors, unlocked, made, world⟩ := s'
  cases htypes
  cases hctors
  exact ⟨h.types, h.names, h.arrays, h.ctors, h.size, h.nextType, h.nextCtor⟩

/-- Tables answer to one operation as the store does, and go on doing so, unless more handles
are given than fit. -/
theorem apply (op : Store.Operation ω π) (hfits : (s.apply op).HandlesFit) :
    r.answer op = s.answer op ∧ (r.apply op).Represents (s.apply op) := by
  cases op with
  | declare d => exact h.declare d hfits
  | arrayOf x => exact h.arrayOf x hfits
  | unlock k =>
    refine ⟨rfl, ?_⟩
    show r.Represents ((Store.unlock k).run s).2
    obtain ⟨-, hs⟩ | ⟨-, -, hs⟩ | ⟨-, -, -, hs⟩ | ⟨-, -, -, hs⟩ := s.unlock_cases k <;> rw [hs]
    · exact h
    · exact h
    · exact h
    · exact h.congr rfl rfl
  | instantiate k args =>
    obtain ⟨n, world, hs⟩ := s.apply_instantiate k args
    rw [hs]
    exact ⟨rfl, h.congr rfl rfl⟩
  | elsewhere world => exact ⟨rfl, h.congr rfl rfl⟩

/-- Tables answer to any number of operations as the store does, one after the other, unless
more handles are given than fit. -/
theorem run (ops : List (Store.Operation ω π)) (hfits : (s.run ops).HandlesFit) :
    (r.run ops).Represents (s.run ops) ∧
      ∀ done op rest, ops = done ++ op :: rest →
        (r.run done).answer op = (s.run done).answer op := by
  induction ops generalizing r s with
  | nil => exact ⟨h, by simp⟩
  | cons op ops ih =>
    obtain ⟨hanswer, hr⟩ := h.apply op ((Store.Grows.run _ ops).handlesFit hfits)
    obtain ⟨hend, hrest⟩ := ih hr hfits
    refine ⟨hend, fun done op' rest heq => ?_⟩
    cases done with
    | nil =>
      cases heq
      exact hanswer
    | cons _ done =>
      cases heq
      exact hrest done op' rest rfl

/-- The bound cannot be moved. Where the last handle is given, the counter is back at the start,
and the next array type of the tables gets the absent handle. -/
theorem arrayOf_of_full (hfull : s.nextType.index = UInt32.size) {x : TypeHandle}
    (hx : s.canHold x = true) (hnew : s.array? x = none) :
    ((Tables.arrayOf x).run r).1 = .absent ∧ ((Store.arrayOf x).run s).1 = ⟨UInt32.size⟩ := by
  obtain ⟨t, ht, -⟩ | ⟨-, d, hd, -, hs⟩ | ⟨-, hno, -⟩ := s.arrayOf_cases x
  · cases ht.symm.trans hnew
  · have hcounter : r.nextType.toNat = 0 := by
      rw [h.nextType, hfull]
      rfl
    rw [h.run_arrayOf_new hnew hd hx, hs, ← hfull]
    exact ⟨congrArg TypeHandle.mk hcounter, rfl⟩
  · cases hno.symm.trans hx

end Represents

/-- Tables that were just set up answer to any number of operations as a store does that was just
set up, unless more handles are given than fit. -/
theorem represents_run (serial : Nat) (world : ω) (ops : List (Store.Operation ω π))
    (hfits : (Store.run { serial, world } ops).HandlesFit) :
    (initial.run ops).Represents (Store.run { serial, world } ops) ∧
      ∀ done op rest, ops = done ++ op :: rest →
        (initial.run done).answer op = (Store.run { serial, world } done).answer op :=
  (represents_initial serial world).run ops hfits

/-- Every reachable store whose handles fit is laid out in tables that answer as it does. -/
theorem exists_represents (hs : s.Reachable) (hfits : s.HandlesFit) :
    ∃ ops, (initial.run ops).Represents s := by
  obtain ⟨serial, world, ops, rfl⟩ := hs.exists_run
  exact ⟨ops, (represents_run serial world ops hfits).1⟩

example : Store.kennels.HandlesFit := ⟨by decide, by decide⟩

end Tables

end BestFit
