import BestFit.Catalog.Table
import BestFit.Proofs.Store.Reachable

/-!
# What conversion comes to

Conversion told in one piece, without the order in which it is computed: null aside, a type
converts to what it equals, widens to or lies below, once it is boxed or unboxed as the other
side asks. Main statement: `converts_iff_convertsBy`. It needs array types not to nest without
end; links between classes and interfaces may run in circles or lead nowhere. Null does not
convert to null, and nothing lies below an undeclared type (`not_converts_iff_linkedBelow`).
-/
namespace BestFit

open TypeHandle
open Relation (ReflTransGen)

namespace Catalog

variable {c : Catalog} {boxing : Bool} {a b : TypeHandle}

/-! ## The relation -/

/-- What a type counts as on its way to another: itself, unless boxing is on and one of the two
is primitive and the other is not. Then a primitive type counts as its wrapper, a wrapper as its
primitive type, and all else as nothing. -/
inductive CountsAs (boxing : Bool) (a b : TypeHandle) : TypeHandle → Prop
  | itself (h : boxing = true →
      (Primitive.ofHandle? a).isSome = (Primitive.ofHandle? b).isSome) : CountsAs boxing a b a
  | boxed {p : Primitive} {w : TypeHandle} (hboxing : boxing = true) (ha : a = p.handle)
      (hb : Primitive.ofHandle? b = none) (hw : p.wrapper? = some w) : CountsAs boxing a b w
  | unboxed {p q : Primitive} (hboxing : boxing = true) (hw : p.wrapper? = some a)
      (hb : b = q.handle) : CountsAs boxing a b p.handle

/-- What types on one side of boxing convert by: being equal, widening, or lying below. -/
def Meets (below : TypeHandle → TypeHandle → Prop) (a b : TypeHandle) : Prop :=
  a = b ∨
  (∃ p q : Primitive, a = p.handle ∧ b = q.handle ∧ p.widensTo q = true) ∨
  (Primitive.ofHandle? a = none ∧ Primitive.ofHandle? b = none ∧ below a b)

/-- Conversion by a given order of reference types. -/
def ConvertsBy (c : Catalog) (below : TypeHandle → TypeHandle → Prop) (boxing : Bool)
    (a b : TypeHandle) : Prop :=
  a ≠ absent ∧ b ≠ absent ∧
    ((a = .null ∧ b ≠ .null ∧ Primitive.ofHandle? b = none ∧ c.contains b = true) ∨
      a = b ∨
      ∃ a', CountsAs boxing a b a' ∧ Meets below a' b)

/-- The order of reference types by links alone. Unlike in `Refers`, what a link leads to may be
undeclared. -/
inductive LinkedBelow (c : Catalog) : TypeHandle → TypeHandle → Prop
  | root {a : TypeHandle} (ha : c.contains a = true) (ho : c.contains .object = true) :
      LinkedBelow c a .object
  | sameComponent {a b x : TypeHandle} (ha : c.HasComponent a x) (hb : c.HasComponent b x) :
      LinkedBelow c a b
  | component {a b x y : TypeHandle} (ha : c.HasComponent a x) (hb : c.HasComponent b y)
      (hx : Primitive.ofHandle? x = none) (hy : Primitive.ofHandle? y = none)
      (h : LinkedBelow c x y) : LinkedBelow c a b
  | climb {a b : TypeHandle} (hn : c.component? a = none) (h : ReflTransGen c.IsParent a b) :
      LinkedBelow c a b

/-! ## From rules to the relation and back -/

theorem Converts.convertsBy (h : c.Converts boxing a b) :
    ¬(a = .null ∧ b = .null) ∧ c.ConvertsBy c.Refers boxing a b := by
  refine ⟨?_, h.left_ne_absent, h.right_ne_absent, ?_⟩
  · rintro ⟨rfl, hb⟩
    generalize hn : TypeHandle.null = a at h
    cases h with
    | null _ hb' => exact hb' hb
    | same _ hn' => exact hn' hn.symm
    | widen | box => exact Primitive.handle_ne_null _ hn.symm
    | refer _ _ hn' => exact hn' hn.symm
    | unbox _ hw => exact Primitive.wrapper_ne_null hw hn.symm
  · cases h with
    | null hb hn hp hc => exact .inl ⟨rfl, hn, hp, hc⟩
    | same => exact .inr (.inl rfl)
    | @widen p q h =>
      exact .inr (.inr ⟨p.handle, .itself (by simp), .inr (.inl ⟨p, q, rfl, rfl, h⟩)⟩)
    | refer _ _ _ hp hq h =>
      exact .inr (.inr ⟨a, .itself (by simp [hp, hq]), .inr (.inr ⟨hp, hq, h⟩)⟩)
    | box hboxing hw _ hq h =>
      refine .inr (.inr ⟨_, .boxed hboxing rfl hq hw, ?_⟩)
      exact h.imp_right fun h => .inr ⟨Primitive.ofHandle?_wrapper hw, hq, h⟩
    | @unbox _ p q hboxing hw h =>
      refine .inr (.inr ⟨p.handle, .unboxed hboxing hw rfl, ?_⟩)
      exact h.imp (congrArg Primitive.handle) fun h => .inl ⟨p, q, rfl, rfl, h⟩

/-- Types that meet convert without boxing, and null to reference types only. -/
theorem Converts.of_meets (ha : a ≠ absent) (hb : b ≠ absent) (hn : ¬(a = .null ∧ b = .null))
    (h : Meets c.Refers a b) : c.Converts boxing a b := by
  rcases h with rfl | ⟨p, q, rfl, rfl, h⟩ | ⟨hp, hq, h⟩
  · exact .same ha fun hnull => hn ⟨hnull, hnull⟩
  · exact .widen h
  · by_cases hnull : a = .null
    · subst hnull
      exact .null hb (fun hb => hn ⟨rfl, hb⟩) hq h.contains_right
    · exact .refer ha hb hnull hp hq h

theorem Converts.of_convertsBy (hn : ¬(a = .null ∧ b = .null))
    (h : c.ConvertsBy c.Refers boxing a b) : c.Converts boxing a b := by
  obtain ⟨ha, hb, ⟨rfl, hnb, hp, hc⟩ | rfl | ⟨a', hcounts, hmeets⟩⟩ := h
  · exact .null hb hnb hp hc
  · exact .same ha fun hnull => hn ⟨hnull, hnull⟩
  · cases hcounts with
    | itself => exact .of_meets ha hb hn hmeets
    | @boxed p _ hboxing hp hq hw =>
      subst hp
      rcases hmeets with h | ⟨p', _, rfl, _⟩ | ⟨-, -, h⟩
      · exact .box hboxing hw hb hq (.inl h)
      · simpa using Primitive.ofHandle?_wrapper hw
      · exact .box hboxing hw hb hq (.inr h)
    | @unboxed p q hboxing hw hq =>
      subst hq
      rcases hmeets with h | ⟨p', q', hp', hq', h⟩ | ⟨hp, -⟩
      · exact .unbox hboxing hw (.inl (Primitive.handle_injective h))
      · obtain rfl := Primitive.handle_injective hp'
        obtain rfl := Primitive.handle_injective hq'
        exact .unbox hboxing hw (.inr h)
      · simp at hp

/-! ## The computation comes to an end -/

theorem exists_widensOrRefers (hfin : c.FiniteNesting) (a b : TypeHandle) :
    ∃ r, ∀ n, c.levels ≤ n → c.widensOrRefers n a b = some r := by
  unfold widensOrRefers
  cases Primitive.ofHandle? a with
  | none =>
    cases Primitive.ofHandle? b with
    | none => exact exists_refersTo hfin a b
    | some q => exact ⟨false, fun n _ => rfl⟩
  | some p =>
    cases Primitive.ofHandle? b with
    | none => exact ⟨false, fun n _ => rfl⟩
    | some q => exact ⟨p.widensTo q, fun n _ => rfl⟩

theorem exists_conversion? (hfin : c.FiniteNesting) (boxing : Bool) (a b : TypeHandle) :
    ∃ r, ∀ n, c.levels ≤ n → c.conversion? n boxing a b = some r := by
  unfold conversion?
  split
  · exact ⟨false, fun n _ => rfl⟩
  split
  · exact ⟨_, fun n _ => rfl⟩
  split
  · exact ⟨true, fun n _ => rfl⟩
  split
  · exact ⟨false, fun n _ => rfl⟩
  · next a' _ =>
    by_cases hab : a' = b
    · exact ⟨true, fun n _ => if_pos hab⟩
    · obtain ⟨r, hr⟩ := exists_widensOrRefers hfin a' b
      exact ⟨r, fun n hn => (if_neg hab).trans (hr n hn)⟩

/-- The conversion of two types is settled after `levels` levels. -/
theorem conversion?_eq_converts (hfin : c.FiniteNesting) {n : Nat} (hn : c.levels ≤ n) :
    c.conversion? n boxing a b = some (c.converts boxing a b) := by
  obtain ⟨r, hr⟩ := exists_conversion? hfin boxing a b
  rw [converts, hr n hn, hr c.levels (Nat.le_refl _)]
  cases r <;> rfl

end Catalog

/-- A table in which every array type comes after its component nests finitely. -/
theorem TypeTable.finiteNesting {tbl : TypeTable}
    (h : ∀ d ∈ tbl.types, ∀ x, d.component? = some x → x.index < d.handle.index) :
    tbl.catalog.FiniteNesting := by
  refine .of_index_lt fun a x hax => ?_
  obtain ⟨d, hd, hdx⟩ := Option.bind_eq_some_iff.mp hax
  obtain rfl := TypeDecl.handle_of_lookup hd
  exact h d (List.mem_of_find?_eq_some hd) x hdx

namespace Catalog

/-! ## Conversion as declared -/

/-- Where array types nest finitely, as they do in every reachable store, conversion comes to an
end. It holds between two types exactly if they are not both null and convert by the order that
`Refers` tells. -/
theorem converts_iff_convertsBy :
    (∀ (ω π : Type) (s : Store ω π), s.Reachable → s.catalog.FiniteNesting) ∧
    ∀ c : Catalog, c.FiniteNesting → ∀ (boxing : Bool) (a b : TypeHandle),
      (∀ n, c.levels ≤ n → c.conversion? n boxing a b = some (c.converts boxing a b)) ∧
      (c.converts boxing a b = true ↔
        ¬(a = .null ∧ b = .null) ∧ c.ConvertsBy c.Refers boxing a b) := by
  refine ⟨fun ω π s hs => hs.wellFormed.lawful.finite, fun c hfin boxing a b => ⟨?_, ?_⟩⟩
  · intro n hn
    exact conversion?_eq_converts hfin hn
  · rw [converts_iff hfin]
    constructor
    · exact Converts.convertsBy
    · rintro ⟨hn, h⟩
      exact .of_convertsBy hn h

/-- Two classes that extend each other, and their array types. -/
def circle : TypeTable where
  types :=
    [ { handle := ⟨100⟩, name := "Left", shape := .classType, superclass := some ⟨101⟩ },
      { handle := ⟨101⟩, name := "Right", shape := .classType, superclass := some ⟨100⟩ },
      { handle := ⟨102⟩, name := "Left[]", shape := .array ⟨100⟩ },
      { handle := ⟨103⟩, name := "Right[]", shape := .array ⟨101⟩ } ]

/-- Around the circle, array types convert by their components. -/
theorem converts_iff_convertsBy_circle :
    circle.catalog.FiniteNesting ∧ circle.catalog.converts true ⟨102⟩ ⟨103⟩ = true ∧
    circle.catalog.conversion? (circle.catalog.levels + 1) true ⟨102⟩ ⟨103⟩ = some true := by
  have hfin : circle.catalog.FiniteNesting := TypeTable.finiteNesting (by decide)
  obtain ⟨-, h⟩ := converts_iff_convertsBy
  obtain ⟨hends, hiff⟩ := h circle.catalog hfin true ⟨102⟩ ⟨103⟩
  have hparent : circle.catalog.IsParent ⟨100⟩ ⟨101⟩ := List.mem_singleton.mpr rfl
  have hup : circle.catalog.Refers ⟨100⟩ ⟨101⟩ := .climb rfl rfl rfl (.single hparent)
  have hconverts := hiff.mpr ⟨by decide, by decide, by decide, .inr (.inr
    ⟨_, .itself fun _ => rfl, .inr (.inr ⟨rfl, rfl, .component rfl rfl rfl rfl hup⟩)⟩)⟩
  refine ⟨hfin, hconverts, ?_⟩
  rw [hends _ (Nat.le_succ _), hconverts]

/-- A class that extends an undeclared one. -/
def orphan : TypeTable where
  types := [{ handle := ⟨100⟩, name := "Orphan", shape := .classType, superclass := some ⟨101⟩ }]

/-- Null equals null and does not convert to it, and a link to an undeclared type is no way up. -/
theorem not_converts_iff_linkedBelow :
    (orphan.catalog.FiniteNesting ∧
      ¬(orphan.catalog.converts false .null .null = true ↔
        orphan.catalog.ConvertsBy orphan.catalog.LinkedBelow false .null .null)) ∧
    ¬(orphan.catalog.converts false ⟨100⟩ ⟨101⟩ = true ↔
      orphan.catalog.ConvertsBy orphan.catalog.LinkedBelow false ⟨100⟩ ⟨101⟩) := by
  refine ⟨⟨TypeTable.finiteNesting (by decide), fun h => ?_⟩, fun h => ?_⟩
  · have hequal : orphan.catalog.ConvertsBy orphan.catalog.LinkedBelow false .null .null :=
      ⟨by decide, by decide, .inr (.inl rfl)⟩
    exact absurd (h.mpr hequal) (by decide)
  · have hparent : orphan.catalog.IsParent ⟨100⟩ ⟨101⟩ := List.mem_singleton.mpr rfl
    have hup : orphan.catalog.LinkedBelow ⟨100⟩ ⟨101⟩ := .climb rfl (.single hparent)
    have hlinked : orphan.catalog.ConvertsBy orphan.catalog.LinkedBelow false ⟨100⟩ ⟨101⟩ :=
      ⟨by decide, by decide, .inr (.inr ⟨_, .itself (by decide), .inr (.inr ⟨rfl, rfl, hup⟩)⟩)⟩
    exact absurd (h.mpr hlinked) (by decide)

end Catalog

end BestFit
