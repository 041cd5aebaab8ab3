import BestFit.Catalog.Table
import BestFit.Exposure
import Mathlib.Logic.Function.Iterate
import Mathlib.Logic.Relation

/-!
# Exposure and nesting

`Nests` lists the types around a type, from the inside out; there is no such list where the way
outward runs in a circle. A type is exposed if there is one, not too long, of public types only
(`exposesWithin_iff`, for any limit). `lookOutward` goes that way type by type and counts them; it
keeps no record of where it has been, and it is the limit that brings it to an end
(`iterate_lookOutward`). Main statement: `exposesType_iff_openWithin`.
-/
namespace BestFit

namespace Catalog

open Relation (ReflTransGen TransGen)

variable {c : Catalog} {t u : TypeHandle} {chain outer : List TypeHandle}

/-! ## Nesting -/

/-- The first type is declared in the body of the second. -/
def IsInside (c : Catalog) (t u : TypeHandle) : Prop := c.enclosing? t = some u

/-- The types from `t` outward, itself included: each is declared in the next one, and the last in
none. -/
inductive Nests (c : Catalog) : TypeHandle → List TypeHandle → Prop
  | outermost {t : TypeHandle} (h : c.enclosing? t = none) : Nests c t [t]
  | inside {t u : TypeHandle} {chain : List TypeHandle} (h : c.IsInside t u)
      (hu : Nests c u chain) : Nests c t (t :: chain)

/-- The way outward ends within `n` types, and all of them are declared and public. -/
def OpenWithin (c : Catalog) (n : Nat) (t : TypeHandle) : Prop :=
  ∃ chain, c.Nests t chain ∧ chain.length ≤ n ∧
    ∀ u ∈ chain, c.contains u = true ∧ c.isPublic u = true

namespace Nests

/-- There is one way outward. -/
theorem unique (h : c.Nests t chain) (h' : c.Nests t outer) : chain = outer := by
  induction h generalizing outer with
  | outermost hnone =>
    cases h' with
    | outermost => rfl
    | inside hsome =>
      rw [IsInside, hnone] at hsome
      cases hsome
  | inside hsome _ ih =>
    cases h' with
    | outermost hnone =>
      rw [IsInside, hnone] at hsome
      cases hsome
    | inside hsome' hrest =>
      obtain rfl := Option.some.inj (hsome.symm.trans hsome')
      rw [ih hrest]

theorem ne_nil (h : c.Nests t chain) : chain ≠ [] := by
  cases h <;> simp

/-- What lies around one of the types on the way is the rest of the way. -/
theorem of_isInside (h : c.Nests t chain) (htu : c.IsInside t u) :
    ∃ outer, c.Nests u outer ∧ outer.length < chain.length := by
  cases h with
  | outermost hnone =>
    rw [IsInside, hnone] at htu
    cases htu
  | inside h hrest =>
    obtain rfl := Option.some.inj (h.symm.trans htu)
    exact ⟨_, hrest, Nat.lt_succ_self _⟩

theorem of_transGen (h : c.Nests t chain) (htu : TransGen c.IsInside t u) :
    ∃ outer, c.Nests u outer ∧ outer.length < chain.length := by
  induction htu with
  | single htu => exact h.of_isInside htu
  | tail _ huv ih =>
    obtain ⟨outer, hu, hlt⟩ := ih
    obtain ⟨rest, hv, hlt'⟩ := hu.of_isInside huv
    exact ⟨rest, hv, Nat.lt_trans hlt' hlt⟩

/-- The way outward does not come back to where it has been. -/
theorem not_transGen_self (h : c.Nests t chain) : ¬TransGen c.IsInside t t := by
  intro hcircle
  obtain ⟨outer, houter, hlt⟩ := h.of_transGen hcircle
  rw [h.unique houter] at hlt
  exact Nat.lt_irrefl _ hlt

/-- Nor does it lead into a circle. -/
theorem not_circle (h : c.Nests t chain) (htu : ReflTransGen c.IsInside t u) :
    ¬TransGen c.IsInside u u := by
  rcases Relation.reflTransGen_iff_eq_or_transGen.mp htu with rfl | htu
  · exact h.not_transGen_self
  · obtain ⟨outer, hu, -⟩ := h.of_transGen htu
    exact hu.not_transGen_self

end Nests

/-! ## Within a limit -/

theorem contains_of_isPublic (h : c.isPublic t = true) : c.contains t = true := by
  obtain ⟨d, hd, -⟩ := (Option.any_eq_true _ _).mp h
  exact (c.contains_iff t).mpr ⟨d, hd⟩

theorem not_openWithin_zero : ¬c.OpenWithin 0 t := by
  rintro ⟨chain, h, hlen, -⟩
  exact h.ne_nil (List.eq_nil_of_length_eq_zero (Nat.le_zero.mp hlen))

/-- A type inside no other is open if it is public. -/
theorem openWithin_of_outermost (hnone : c.enclosing? t = none) (n : Nat) :
    c.OpenWithin (n + 1) t ↔ c.isPublic t = true := by
  constructor
  · rintro ⟨chain, h, -, hall⟩
    rw [h.unique (.outermost hnone)] at hall
    exact (hall t (List.mem_singleton_self t)).2
  · intro h
    refine ⟨[t], .outermost hnone, by simp, ?_⟩
    intro u hu
    rw [List.mem_singleton.mp hu]
    exact ⟨contains_of_isPublic h, h⟩

/-- A type inside another is open if it is public and the other is open. -/
theorem openWithin_of_isInside (htu : c.IsInside t u) (n : Nat) :
    c.OpenWithin (n + 1) t ↔ c.isPublic t = true ∧ c.OpenWithin n u := by
  constructor
  · rintro ⟨chain, h, hlen, hall⟩
    cases h with
    | outermost hnone =>
      rw [IsInside, hnone] at htu
      cases htu
    | inside h hrest =>
      obtain rfl := Option.some.inj (h.symm.trans htu)
      obtain ⟨ht, hall⟩ := List.forall_mem_cons.mp hall
      exact ⟨ht.2, _, hrest, Nat.le_of_succ_le_succ hlen, hall⟩
  · rintro ⟨ht, chain, h, hlen, hall⟩
    refine ⟨t :: chain, .inside htu h, Nat.succ_le_succ hlen, ?_⟩
    exact List.forall_mem_cons.mpr ⟨⟨contains_of_isPublic ht, ht⟩, hall⟩

/-- Exposure within a limit is an open way outward within that limit. -/
theorem exposesWithin_iff {n : Nat} : c.exposesWithin n t = true ↔ c.OpenWithin n t := by
  induction n generalizing t with
  | zero => exact iff_of_false Bool.false_ne_true not_openWithin_zero
  | succ n ih =>
    cases henclosing : c.enclosing? t with
    | none =>
      rw [openWithin_of_outermost henclosing]
      simp [exposesWithin, henclosing]
    | some u =>
      rw [openWithin_of_isInside henclosing, ← ih]
      simp [exposesWithin, henclosing]

/-! ## Type by type -/

/-- What is under way on the way outward. -/
inductive Outlook where
  /-- The type to look at next, if there is one, and how many were public so far. -/
  | looking (next : Option TypeHandle) (passed : Nat)
  | answered (r : Bool)

/-- One look. A type that is not public ends the way, and so does one public type too many. -/
def lookOutward (c : Catalog) : Outlook → Outlook
  | .looking none _ => .answered true
  | .looking (some t) passed =>
      if c.isPublic t = false then .answered false
      else if maxNesting < passed + 1 then .answered false
      else .looking (c.enclosing? t) (passed + 1)
  | .answered r => .answered r

theorem iterate_lookOutward_answered (r : Bool) (n : Nat) :
    c.lookOutward^[n] (.answered r) = .answered r := Function.iterate_fixed rfl n

/-- With `n` types still to go before the limit, the answer is there after one look more. -/
theorem iterate_lookOutward {n passed : Nat} (hn : passed + n = maxNesting)
    (next : Option TypeHandle) :
    c.lookOutward^[n + 1] (.looking next passed) =
      .answered (match next with
        | none => true
        | some t => c.exposesWithin n t) := by
  induction n generalizing passed next with
  | zero =>
    cases next with
    | none => rfl
    | some t =>
      have hlimit : maxNesting < passed + 1 := by omega
      cases hpublic : c.isPublic t <;> simp [lookOutward, exposesWithin, hpublic, hlimit]
  | succ n ih =>
    rw [Function.iterate_succ_apply]
    cases next with
    | none => exact iterate_lookOutward_answered true _
    | some t =>
      cases hpublic : c.isPublic t with
      | false =>
        have hlook : c.lookOutward (.looking (some t) passed) = .answered false := by
          simp [lookOutward, hpublic]
        rw [hlook, iterate_lookOutward_answered]
        simp [exposesWithin, hpublic]
      | true =>
        have hlimit : ¬maxNesting < passed + 1 := by omega
        have hlook : c.lookOutward (.looking (some t) passed) =
            .looking (c.enclosing? t) (passed + 1) := by
          simp [lookOutward, hpublic, hlimit]
        rw [hlook, ih (by omega)]
        cases henclosing : c.enclosing? t <;> simp [exposesWithin, hpublic, henclosing]

/-! ## Exposure -/

/-- The way outward is gone in 65 looks at most. A type is exposed exactly if that way ends within
64 types, itself included, that are all declared and public; so a way that ends is too long from
65 types on, and one into a circle never ends. A constructor has to be public besides. -/
theorem exposesType_iff_openWithin (c : Catalog) (t : TypeHandle) :
    c.lookOutward^[65] (.looking (some t) 0) = .answered (c.exposesType t) ∧
    (c.exposesType t = true ↔ c.OpenWithin 64 t) ∧
    (∀ chain, c.Nests t chain → (∀ u ∈ chain, c.isPublic u = true) →
      (c.exposesType t = true ↔ chain.length ≤ 64)) ∧
    (∀ u, ReflTransGen c.IsInside t u → TransGen c.IsInside u u → c.exposesType t = false) ∧
    ∀ k : Ctor, c.exposes k = true ↔ k.isPublic = true ∧ c.OpenWithin 64 k.owner := by
  have hopen : ∀ t, c.exposesType t = true ↔ c.OpenWithin 64 t := fun t => exposesWithin_iff
  refine ⟨?_, hopen t, ?_, ?_, ?_⟩
  · exact iterate_lookOutward (Nat.zero_add maxNesting) (some t)
  · intro chain hchain hpublic
    rw [hopen]
    constructor
    · rintro ⟨chain', hchain', hlen, -⟩
      rwa [hchain.unique hchain']
    · intro hlen
      exact ⟨chain, hchain, hlen, fun u hu => ⟨contains_of_isPublic (hpublic u hu), hpublic u hu⟩⟩
  · intro u htu hcircle
    rw [← Bool.not_eq_true, hopen]
    rintro ⟨chain, hchain, -⟩
    exact hchain.not_circle htu hcircle
  · intro k
    rw [exposes, Bool.and_eq_true, hopen]

/-- One floor of a tower of `n`: a public type, inside the next floor if there is one. -/
def floor (n i : Nat) : TypeDecl where
  handle := ⟨100 + i⟩
  name := s!"Floor{i}"
  shape := .classType
  modifiers := { isPublic := true }
  enclosing := if i + 1 < n then some ⟨100 + (i + 1)⟩ else none

/-- The `n` floors; the innermost has handle 100. -/
def tower (n : Nat) : TypeTable where
  types := (List.range n).map (floor n)

/-- Two public types, each inside the other. -/
def knot : TypeTable where
  types :=
    [ { handle := ⟨100⟩, name := "Left", shape := .classType, modifiers := { isPublic := true },
        enclosing := some ⟨101⟩ },
      { handle := ⟨101⟩, name := "Right", shape := .classType, modifiers := { isPublic := true },
        enclosing := some ⟨100⟩ } ]

theorem decl?_tower {n i : Nat} (hi : i < n) :
    (tower n).catalog.decl? ⟨100 + i⟩ = some (floor n i) := by
  have hfind : (List.range n).find? ((·.handle == ⟨100 + i⟩) ∘ floor n) = some i := by
    refine List.find?_range_eq_some.mpr ⟨by simp [floor], List.mem_range.mpr hi, ?_⟩
    intro j hj
    have hne : j ≠ i := Nat.ne_of_lt hj
    simpa [floor] using hne
  simp only [TypeTable.catalog, TypeDecl.lookup, tower, List.find?_map, hfind, Option.map_some]

theorem isPublic_tower {n i : Nat} (hi : i < n) : (tower n).catalog.isPublic ⟨100 + i⟩ = true := by
  rw [isPublic, decl?_tower hi]
  rfl

theorem enclosing?_tower {n i : Nat} (hi : i < n) : (tower n).catalog.enclosing? ⟨100 + i⟩ =
    if i + 1 < n then some ⟨100 + (i + 1)⟩ else none := by
  rw [enclosing?, decl?_tower hi]
  rfl

/-- From floor `i` outward there are the floors from there on, all of them public. -/
theorem nests_tower {n i m : Nat} (hn : i + (m + 1) = n) :
    ∃ chain, (tower n).catalog.Nests ⟨100 + i⟩ chain ∧ chain.length = m + 1 ∧
      ∀ u ∈ chain, (tower n).catalog.isPublic u = true := by
  have hi : i < n := by omega
  induction m generalizing i with
  | zero =>
    have hnone := enclosing?_tower hi
    rw [if_neg (by omega)] at hnone
    exact ⟨[⟨100 + i⟩], .outermost hnone, rfl, by simpa using isPublic_tower hi⟩
  | succ m ih =>
    have hsome := enclosing?_tower hi
    rw [if_pos (by omega)] at hsome
    obtain ⟨chain, hchain, hlen, hpublic⟩ := ih (i := i + 1) (by omega) (by omega)
    refine ⟨⟨100 + i⟩ :: chain, .inside hsome hchain, by rw [List.length_cons, hlen], ?_⟩
    exact List.forall_mem_cons.mpr ⟨isPublic_tower hi, hpublic⟩

/-- A tower of 64 is the highest whose innermost type is exposed; in the knot nothing is. -/
theorem exposesType_iff_openWithin_tower :
    (tower 64).catalog.exposesType ⟨100⟩ = true ∧
    (tower 65).catalog.exposesType ⟨100⟩ = false ∧
    knot.catalog.exposesType ⟨100⟩ = false := by
  refine ⟨?_, ?_, ?_⟩
  · obtain ⟨chain, hchain, hlen, hpublic⟩ := nests_tower (n := 64) (i := 0) (m := 63) rfl
    obtain ⟨-, -, hlimit, -, -⟩ := exposesType_iff_openWithin (tower 64).catalog ⟨100⟩
    exact (hlimit chain hchain hpublic).mpr (Nat.le_of_eq hlen)
  · obtain ⟨chain, hchain, hlen, hpublic⟩ := nests_tower (n := 65) (i := 0) (m := 64) rfl
    obtain ⟨-, -, hlimit, -, -⟩ := exposesType_iff_openWithin (tower 65).catalog ⟨100⟩
    rw [← Bool.not_eq_true, hlimit chain hchain hpublic, hlen]
    decide
  · obtain ⟨-, -, -, hcircle, -⟩ := exposesType_iff_openWithin knot.catalog ⟨100⟩
    have hout : knot.catalog.IsInside ⟨100⟩ ⟨101⟩ := rfl
    have hback : knot.catalog.IsInside ⟨101⟩ ⟨100⟩ := rfl
    exact hcircle ⟨100⟩ .refl (.tail (.single hout) hback)

end Catalog

end BestFit
