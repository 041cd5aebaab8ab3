import BestFit.Conversion
import Mathlib.Data.Finset.Card
import Mathlib.Logic.Relation
import Mathlib.Order.WellFounded

/-!
# Reference conversion as a relation

`Catalog.Refers` says which reference types a reference type converts to, by rules on
the declared links alone. The computation `Catalog.refersTo` walks upward a bounded
number of steps and looks through a bounded number of array levels; the bounds it is
given by `Catalog.converts` are shown to be enough.

* `isAbove_iff`: walking `handles.length` steps finds every type above, circles or not.
* `refersTo_levels_iff`: where array types do not nest without end, `levels` levels
  settle every comparison, and the answer is `Refers`.
-/
namespace BestFit.Catalog

open Relation (ReflTransGen TransGen)

variable {c : Catalog}

/-- `b` is declared one step above `a`. -/
def IsParent (c : Catalog) (a b : TypeHandle) : Prop := b ∈ c.parents a

/-- `x` is the component type of the array type `a`. -/
def HasComponent (c : Catalog) (a x : TypeHandle) : Prop := c.component? a = some x

/-- Every chain of array components comes to an end. -/
def FiniteNesting (c : Catalog) : Prop := WellFounded fun x a => c.HasComponent a x

/-- Components with smaller handles than their array types nest finitely. -/
theorem FiniteNesting.of_index_lt (h : ∀ a x, c.HasComponent a x → x.index < a.index) :
    c.FiniteNesting := by
  refine Subrelation.wf (r := InvImage (· < ·) TypeHandle.index) ?_ (InvImage.wf _ Nat.lt_wfRel.wf)
  intro x a hax
  exact h a x hax

/-- Reference conversion: to the root class, between array types by their components,
and otherwise upward along declared links. -/
inductive Refers (c : Catalog) : TypeHandle → TypeHandle → Prop
  | root {a : TypeHandle} (ha : c.contains a = true) (ho : c.contains .object = true) :
      Refers c a .object
  | sameComponent {a b x : TypeHandle} (ha : c.HasComponent a x) (hb : c.HasComponent b x) :
      Refers c a b
  | component {a b x y : TypeHandle} (ha : c.HasComponent a x) (hb : c.HasComponent b y)
      (hx : Primitive.ofHandle? x = none) (hy : Primitive.ofHandle? y = none)
      (h : Refers c x y) : Refers c a b
  | climb {a b : TypeHandle} (ha : c.contains a = true) (hb : c.contains b = true)
      (hn : c.component? a = none) (h : ReflTransGen c.IsParent a b) : Refers c a b

theorem HasComponent.contains {a x : TypeHandle} (h : c.HasComponent a x) :
    c.contains a = true := by
  obtain ⟨d, hd, -⟩ := Option.bind_eq_some_iff.mp h
  exact (c.contains_iff a).mpr ⟨d, hd⟩

theorem not_hasComponent {a x : TypeHandle} (h : c.component? a = none) : ¬c.HasComponent a x := by
  rw [HasComponent, h]
  exact nofun

theorem IsParent.contains {a b : TypeHandle} (h : c.IsParent a b) : c.contains a = true := by
  unfold IsParent parents at h
  split at h
  · next d hd => exact (c.contains_iff a).mpr ⟨d, hd⟩
  · simp at h

theorem Refers.contains_left {a b : TypeHandle} (h : c.Refers a b) : c.contains a = true := by
  cases h with
  | root ha _ => exact ha
  | sameComponent ha _ => exact ha.contains
  | component ha _ _ _ _ => exact ha.contains
  | climb ha _ _ _ => exact ha

theorem Refers.contains_right {a b : TypeHandle} (h : c.Refers a b) : c.contains b = true := by
  cases h with
  | root _ ho => exact ho
  | sameComponent _ hb => exact hb.contains
  | component _ hb _ _ _ => exact hb.contains
  | climb _ hb _ _ => exact hb

/-! ## Walking upward -/

/-- What a bounded walk meets lies above one of its starting points. -/
theorem exists_above_of_climbs {target : TypeHandle} {n : Nat} {ts : List TypeHandle}
    (h : c.climbs target n ts = true) : ∃ t ∈ ts, ReflTransGen c.IsParent t target := by
  induction n generalizing ts with
  | zero => exact ⟨target, by simpa [climbs] using h, .refl⟩
  | succ n ih =>
    simp only [climbs, Bool.or_eq_true, Bool.and_eq_true] at h
    rcases h with h | ⟨-, h⟩
    · exact ⟨target, by simpa using h, .refl⟩
    · obtain ⟨u, hu, hup⟩ := ih h
      obtain ⟨t, ht, htu⟩ := List.mem_flatMap.mp (List.mem_eraseDups.mp hu)
      exact ⟨t, ht, .head htu hup⟩

/-- A way up that leaves only types of `S` either has no step, or has a first one after
which its start need not be left again. -/
theorem first_step {S : Finset TypeHandle} {a b : TypeHandle}
    (h : ReflTransGen (fun x y => x ∈ S ∧ c.IsParent x y) a b) :
    a = b ∨ ∃ u, a ∈ S ∧ c.IsParent a u ∧
      ReflTransGen (fun x y => x ∈ S.erase a ∧ c.IsParent x y) u b := by
  -- cut the way at the last place where it leaves `a`
  have hcut : ∀ t, ReflTransGen (fun x y => x ∈ S ∧ c.IsParent x y) t b →
      ReflTransGen (fun x y => x ∈ S.erase a ∧ c.IsParent x y) t b ∨
      ∃ u, a ∈ S ∧ c.IsParent a u ∧
        ReflTransGen (fun x y => x ∈ S.erase a ∧ c.IsParent x y) u b := by
    intro t ht
    induction ht using ReflTransGen.head_induction_on with
    | refl => exact .inl .refl
    | @head t u htu _ ih =>
      rcases ih with ih | ih
      · by_cases hta : t = a
        · subst hta
          exact .inr ⟨u, htu.1, htu.2, ih⟩
        · exact .inl (.head ⟨Finset.mem_erase.mpr ⟨hta, htu.1⟩, htu.2⟩ ih)
      · exact .inr ih
  rcases hcut a h with h | h
  · rcases ReflTransGen.cases_head h with rfl | ⟨u, ⟨hu, -⟩, -⟩
    · exact .inl rfl
    · simp at hu
  · exact .inr h

/-- A walk of as many steps as there are types to leave meets everything above. -/
theorem climbs_of_above {S : Finset TypeHandle} {n : Nat} {ts : List TypeHandle}
    {t target : TypeHandle} (ht : t ∈ ts) (hn : S.card ≤ n)
    (h : ReflTransGen (fun x y => x ∈ S ∧ c.IsParent x y) t target) :
    c.climbs target n ts = true := by
  -- each step leaves a type for good, so what may still be left shrinks with the steps
  induction n generalizing S ts t with
  | zero =>
    have hS : S = ∅ := Finset.card_eq_zero.mp (by omega)
    subst hS
    rcases first_step h with rfl | ⟨_, hm, -, -⟩
    · simpa [climbs] using ht
    · simp at hm
  | succ n ih =>
    simp only [climbs, Bool.or_eq_true, Bool.and_eq_true]
    rcases first_step h with rfl | ⟨u, hm, htu, hup⟩
    · exact .inl (by simpa using ht)
    · have hcard := Finset.card_erase_of_mem hm
      refine .inr ⟨by simpa using List.ne_nil_of_mem ht, ih ?_ (by omega) hup⟩
      exact List.mem_eraseDups.mpr (List.mem_flatMap.mpr ⟨t, ht, htu⟩)

/-- The walk that conversion makes is long enough. -/
theorem isAbove_iff {target t : TypeHandle} :
    c.isAbove target t = true ↔ ReflTransGen c.IsParent t target := by
  constructor
  · intro h
    obtain ⟨u, hu, hup⟩ := exists_above_of_climbs h
    rwa [List.mem_singleton.mp hu] at hup
  · intro h
    have hleft : ∀ x y, c.IsParent x y → x ∈ c.handles.toFinset ∧ c.IsParent x y :=
      fun x y hxy => ⟨List.mem_toFinset.mpr (mem_handles_of_contains hxy.contains), hxy⟩
    exact climbs_of_above (List.mem_singleton_self t) (List.toFinset_card_le _)
      (ReflTransGen.mono hleft _ _ h)

/-! ## Looking through array levels -/

/-- One level of a comparison, told by the component types alone. -/
theorem compare_eq (a b : TypeHandle) :
    c.compare a b =
      if c.contains a = false ∨ c.contains b = false then .settled false
      else if b = .object then .settled true
      else match c.component? a, c.component? b with
        | none, _ => .settled (c.isAbove b a)
        | some _, none => .settled false
        | some x, some y =>
            if x = y then .settled true
            else if (Primitive.ofHandle? x).isSome || (Primitive.ofHandle? y).isSome then
              .settled false
            else .descend x y := by
  cases hd : c.decl? a with
  | none => simp [compare, contains, hd]
  | some d =>
    have hc : c.component? a = d.component? := by simp [component?, hd]
    cases hx : d.component? <;> cases hy : c.component? b <;>
      simp [compare, contains, hd, hc, hx, hy]

/-- `Refers`, told by the component types alone. -/
theorem refers_iff {a b : TypeHandle} :
    c.Refers a b ↔ c.contains a = true ∧ c.contains b = true ∧
      (b = .object ∨ (c.component? a = none ∧ ReflTransGen c.IsParent a b) ∨
        ∃ x y, c.HasComponent a x ∧ c.HasComponent b y ∧
          (x = y ∨ (Primitive.ofHandle? x = none ∧ Primitive.ofHandle? y = none ∧
            c.Refers x y))) := by
  constructor
  · intro h
    refine ⟨h.contains_left, h.contains_right, ?_⟩
    cases h with
    | root => exact .inl rfl
    | sameComponent ha hb => exact .inr (.inr ⟨_, _, ha, hb, .inl rfl⟩)
    | component ha hb hx hy h => exact .inr (.inr ⟨_, _, ha, hb, .inr ⟨hx, hy, h⟩⟩)
    | climb _ _ hn h => exact .inr (.inl ⟨hn, h⟩)
  · rintro ⟨ha, hb, rfl | ⟨hn, h⟩ | ⟨x, y, hax, hby, rfl | ⟨hx, hy, h⟩⟩⟩
    · exact .root ha hb
    · exact .climb ha hb hn h
    · exact .sameComponent hax hby
    · exact .component hax hby hx hy h

/-- A level that settles a comparison settles it as `Refers` does, and one that does not
leaves it to the components. -/
theorem compare_spec (a b : TypeHandle) :
    match c.compare a b with
    | .settled r => (r = true ↔ c.Refers a b)
    | .descend x y => c.HasComponent a x ∧ (c.Refers x y ↔ c.Refers a b) := by
  rw [compare_eq, refers_iff (a := a) (b := b)]
  by_cases hcon : c.contains a = false ∨ c.contains b = false
  · rw [if_pos hcon]
    rcases hcon with h | h <;> simp [h]
  rw [if_neg hcon]
  obtain ⟨ha, hb⟩ : c.contains a = true ∧ c.contains b = true := by simpa using hcon
  by_cases ho : b = .object
  · subst ho
    simp [ha, hb]
  rw [if_neg ho]
  cases hx : c.component? a with
  | none => simp [HasComponent, isAbove_iff, ha, hb, ho, hx]
  | some x =>
    cases hy : c.component? b with
    | none => simp [HasComponent, ho, hx, hy]
    | some y =>
      by_cases hxy : x = y
      · simp [HasComponent, ha, hb, hx, hy, hxy]
      · cases hp : Primitive.ofHandle? x <;> cases hq : Primitive.ofHandle? y <;>
          simp [HasComponent, ha, hb, ho, hx, hy, hxy, hp, hq]

/-- An answer found at some level is the one that `Refers` gives. -/
theorem refersTo_eq_some {n : Nat} {a b : TypeHandle} {r : Bool}
    (h : c.refersTo n a b = some r) : r = true ↔ c.Refers a b := by
  induction n generalizing a b with
  | zero => simp [refersTo] at h
  | succ n ih =>
    have hspec := c.compare_spec a b
    simp only [refersTo] at h
    cases hc : c.compare a b with
    | settled answer =>
      simp only [hc, Option.some.injEq] at h hspec
      rwa [← h]
    | descend x y =>
      simp only [hc] at h hspec
      exact (ih h).trans hspec.2

/-- Levels are enough once they outnumber the array types to look through. -/
theorem refersTo_ne_none (hfin : c.FiniteNesting) {S : Finset TypeHandle} {n : Nat}
    {a b : TypeHandle} (hn : S.card < n)
    (hS : ∀ x y, ReflTransGen c.HasComponent a x → c.HasComponent x y → x ∈ S) :
    c.refersTo n a b ≠ none := by
  induction n generalizing S a b with
  | zero => omega
  | succ n ih =>
    have hspec := c.compare_spec a b
    simp only [refersTo]
    cases hc : c.compare a b with
    | settled answer => simp
    | descend x y =>
      simp only [hc] at hspec ⊢
      have hax : c.HasComponent a x := hspec.1
      have hcard := Finset.card_erase_of_mem (hS a x .refl hax)
      have hpos : 0 < S.card := Finset.card_pos.mpr ⟨a, hS a x .refl hax⟩
      refine ih (S := S.erase a) (by omega) fun z w hxz hzw =>
        Finset.mem_erase.mpr ⟨?_, hS z w (.head hax hxz) hzw⟩
      -- coming back to `a` would be an endless chain of components
      rintro rfl
      have hcycle : TransGen (Function.swap c.HasComponent) z z :=
        Relation.transGen_swap.mpr (.head' hax hxz)
      exact hfin.transGen.irrefl.irrefl z hcycle

/-- The comparison is settled after `levels` levels, and stays so. -/
theorem exists_refersTo (hfin : c.FiniteNesting) (a b : TypeHandle) :
    ∃ r, ∀ n, c.levels ≤ n → c.refersTo n a b = some r := by
  have hcard : c.handles.toFinset.card < c.levels :=
    Nat.lt_succ_of_le (List.toFinset_card_le _)
  have hne : c.refersTo c.levels a b ≠ none :=
    refersTo_ne_none hfin hcard fun x y _ hxy =>
      List.mem_toFinset.mpr (mem_handles_of_contains hxy.contains)
  obtain ⟨r, hr⟩ := Option.ne_none_iff_exists'.mp hne
  exact ⟨r, fun n hn => c.refersTo_mono hn hr⟩

/-- Reference conversion is decided by `handles.length + 1` levels. -/
theorem refersTo_levels_iff (hfin : c.FiniteNesting) {a b : TypeHandle} :
    c.refersTo c.levels a b = some true ↔ c.Refers a b := by
  obtain ⟨r, hr⟩ := exists_refersTo hfin a b
  have hr := hr c.levels (Nat.le_refl _)
  rw [hr, ← refersTo_eq_some hr]
  simp

end BestFit.Catalog
