import BestFit.Proofs.Store.Interning

/-!
# Names

A name stands for the type that got it first. Definitions are refused where the name is taken,
so every class and interface has a name of its own; array types are named after their components
and give way to whatever had the name before. `WellFormed.lookup_eq_some` says what a name stands
for. Main statement: `Reachable.namesTypes`.
-/
namespace BestFit

theorem TypeHandle.ext {t u : TypeHandle} (h : t.index = u.index) : t = u := by
  cases t
  cases u
  exact congrArg TypeHandle.mk h

/-- In a list that ascends by some measure, the first hit is the least one. -/
theorem find?_eq_some_iff_of_ascending {α : Type} {f : α → Nat} {p : α → Bool} {l : List α}
    {a : α} (h : l.Pairwise fun a b => f a < f b) :
    l.find? p = some a ↔ a ∈ l ∧ p a = true ∧ ∀ b ∈ l, p b = true → f a ≤ f b := by
  induction l with
  | nil => simp
  | cons b l ih =>
    obtain ⟨hb, hl⟩ := List.pairwise_cons.mp h
    rw [List.find?_cons]
    cases hp : p b with
    | true =>
      constructor
      · rintro ⟨⟩
        refine ⟨List.mem_cons_self, hp, fun c hc _ => ?_⟩
        rcases List.mem_cons.mp hc with rfl | hc
        · exact Nat.le_refl _
        · exact Nat.le_of_lt (hb c hc)
      · rintro ⟨ha, -, hmin⟩
        rcases List.mem_cons.mp ha with rfl | ha
        · rfl
        · exact absurd (hmin b List.mem_cons_self hp) (Nat.not_le.mpr (hb a ha))
    | false =>
      simp only [ih hl, List.mem_cons, forall_eq_or_imp]
      constructor
      · rintro ⟨ha, hpa, hmin⟩
        exact ⟨.inr ha, hpa, fun h => by simp [hp] at h, hmin⟩
      · rintro ⟨rfl | ha, hpa, -, hmin⟩
        · rw [hp] at hpa
          cases hpa
        · exact ⟨ha, hpa, hmin⟩

namespace Builtin

theorem decl?_of_mem : ∀ d ∈ decls, decl? d.handle = some d := by decide

theorem decls_ascending : decls.Pairwise fun a b => a.handle.index < b.handle.index := by decide

/-- No two built-in types have the same name. -/
theorem eq_of_name : ∀ d ∈ decls, ∀ e ∈ decls, d.name = e.name → d = e := by decide

end Builtin

namespace Store

variable {ω π : Type} {s s' : Store ω π} {name : String} {t u : TypeHandle} {d e : TypeDecl}

/-! ## Types in the order of their handles -/

theorem decl?_types (s : Store ω π) (i : Nat) :
    s.decl? ⟨TypeHandle.firstDeclared + i⟩ = s.types[i]? := by
  have hlow : ¬TypeHandle.firstDeclared + i < TypeHandle.firstDeclared := by omega
  rw [decl?, if_neg hlow, Nat.add_sub_cancel_left]

namespace WellFormed

variable (hs : s.WellFormed)
include hs

theorem handle_getElem {i : Nat} (hi : i < s.types.size) :
    s.types[i].handle = ⟨TypeHandle.firstDeclared + i⟩ :=
  (hs.decls ((s.decl?_types i).trans (Array.getElem?_eq_getElem hi))).handle

theorem mem_decls : d ∈ s.decls ↔ s.decl? d.handle = some d := by
  rw [Store.decls, List.mem_append]
  constructor
  · rintro (hd | hd)
    · rw [s.decl?_builtin (Builtin.decls_links d hd).1]
      exact Builtin.decl?_of_mem d hd
    · obtain ⟨i, hi, rfl⟩ := Array.mem_iff_getElem.mp (Array.mem_toList_iff.mp hd)
      rw [hs.handle_getElem hi, decl?_types, Array.getElem?_eq_getElem hi]
  · intro hd
    unfold Store.decl? at hd
    split at hd
    · exact .inl (Builtin.mem_decls hd)
    · exact .inr (Array.mem_toList_iff.mpr (Array.mem_of_getElem? hd))

theorem decls_ascending : s.decls.Pairwise fun a b => a.handle.index < b.handle.index := by
  rw [Store.decls, List.pairwise_append]
  refine ⟨Builtin.decls_ascending, List.pairwise_iff_getElem.mpr ?_, ?_⟩
  · intro i j hi hj hij
    simp only [Array.length_toList] at hi hj
    simp only [Array.getElem_toList, hs.handle_getElem hi, hs.handle_getElem hj]
    omega
  · intro a ha b hb
    obtain ⟨i, hi, rfl⟩ := Array.mem_iff_getElem.mp (Array.mem_toList_iff.mp hb)
    rw [hs.handle_getElem hi]
    exact Nat.lt_of_lt_of_le (Builtin.decls_links a ha).1 (Nat.le_add_right _ _)

/-- A name stands for the first type that has it. -/
theorem lookup_eq_some : s.lookup name = some t ↔
    ∃ d, s.decl? t = some d ∧ d.name = name ∧
      ∀ u e, s.decl? u = some e → e.name = name → t.index ≤ u.index := by
  rw [lookup, Option.map_eq_some_iff]
  simp only [find?_eq_some_iff_of_ascending hs.decls_ascending, hs.mem_decls, beq_iff_eq]
  constructor
  · rintro ⟨d, ⟨hd, hname, hmin⟩, rfl⟩
    refine ⟨d, hd, hname, fun u e he hne => ?_⟩
    obtain rfl := (hs.decls he).handle
    exact hmin e he hne
  · rintro ⟨d, hd, hname, hmin⟩
    obtain rfl := (hs.decls hd).handle
    exact ⟨d, ⟨hd, hname, fun e he hne => hmin _ e he hne⟩, rfl⟩

/-- A name that some type has stands for one. -/
theorem exists_lookup (hd : s.decl? t = some d) :
    ∃ u, s.lookup d.name = some u ∧ u.index ≤ t.index := by
  cases hu : s.lookup d.name with
  | none =>
    rw [lookup, Option.map_eq_none_iff, List.find?_eq_none] at hu
    obtain rfl := (hs.decls hd).handle
    exact absurd (beq_self_eq_true _) (hu d (hs.mem_decls.mpr hd))
  | some u =>
    obtain ⟨-, -, -, hmin⟩ := hs.lookup_eq_some.mp hu
    exact ⟨u, rfl, hmin t d hd rfl⟩

end WellFormed

/-! ## One operation -/

/-- A name that stands for a type goes on doing so. -/
theorem lookup_apply (op : Operation ω π) (h : s.lookup name = some t) :
    (s.apply op).lookup name = some t := by
  unfold lookup decls at h ⊢
  obtain ⟨d, hd, rfl⟩ := Option.map_eq_some_iff.mp h
  rcases s.types_apply op with htypes | ⟨added, -, htypes⟩
  · rw [htypes, hd]
    rfl
  · rw [htypes, Array.toList_push, ← List.append_assoc, List.find?_append, hd]
    rfl

/-- A class or interface has a name that no type before it has. -/
theorem Reachable.first_of_name (hs : s.Reachable) (hd : s.decl? t = some d)
    (hn : d.component? = none) (he : s.decl? u = some e) (hname : e.name = d.name) :
    t.index ≤ u.index := by
  induction hs generalizing t u with
  | initial serial world =>
    have hbuiltin {t : TypeHandle} {d : TypeDecl}
        (hd : Store.decl? ({ serial, world } : Store ω π) t = some d) : Builtin.decl? t = some d := by
      unfold Store.decl? at hd
      split at hd
      · exact hd
      · simp at hd
    have heq := Builtin.eq_of_name e (Builtin.mem_decls (hbuiltin he)) d
      (Builtin.mem_decls (hbuiltin hd)) hname
    rw [← TypeDecl.handle_of_lookup (hbuiltin he), ← TypeDecl.handle_of_lookup (hbuiltin hd), heq]
  | @apply s hs op ih =>
    rcases decl?_apply hd with hdold | ⟨rfl, hnew⟩
    · rcases decl?_apply he with heold | ⟨rfl, -⟩
      · exact ih hdold heold
      · exact Nat.le_of_lt (index_lt_nextType hdold)
    · rcases decl?_apply he with heold | ⟨rfl, -⟩
      · -- a definition was admitted although its name was taken
        cases hnew with
        | definition hadmits =>
          obtain ⟨v, hv, -⟩ := hs.wellFormed.exists_lookup heold
          rw [hname] at hv
          cases hadmits.name.symm.trans hv
        | array => cases hn
      · exact Nat.le_refl _

/-! ## All of it -/

/-- What the names of a store stand for. -/
structure NamesTypes (s : Store ω π) : Prop where
  sound : ∀ name t, s.lookup name = some t → ∃ d, s.decl? t = some d ∧ d.name = name
  /-- A name stands for the same type ever after. -/
  kept : ∀ name t s', s.lookup name = some t → s.Steps s' → s'.lookup name = some t
  /-- Built-in types, classes and interfaces are found under their names. -/
  own : ∀ t d, s.decl? t = some d → (∀ x, d.shape ≠ .array x) → s.lookup d.name = some t
  distinct : ∀ t d u e, s.decl? t = some d → (∀ x, d.shape ≠ .array x) →
    s.decl? u = some e → (∀ x, e.shape ≠ .array x) → d.name = e.name → t = u
  /-- An array type is found under its name unless an earlier type has it. -/
  array : ∀ t d x, s.decl? t = some d → d.shape = .array x →
    ∃ u e, s.lookup d.name = some u ∧ s.decl? u = some e ∧ e.name = d.name ∧
      u.index ≤ t.index ∧
      (u = t ↔ ¬∃ v f, s.decl? v = some f ∧ f.name = d.name ∧ v.index < t.index)

theorem component?_eq_none_of_shape (h : ∀ x, d.shape ≠ .array x) : d.component? = none := by
  cases hshape : d.shape with
  | array x => exact absurd hshape (h x)
  | _ => simp [TypeDecl.component?, hshape]

theorem Reachable.namesTypes (hs : s.Reachable) : s.NamesTypes := by
  have hwf := hs.wellFormed
  have own : ∀ t d, s.decl? t = some d → (∀ x, d.shape ≠ .array x) →
      s.lookup d.name = some t := by
    intro t d hd hn
    refine hwf.lookup_eq_some.mpr ⟨d, hd, rfl, fun u e he hname => ?_⟩
    exact hs.first_of_name hd (component?_eq_none_of_shape hn) he hname
  exact {
    sound := by
      intro name t h
      obtain ⟨d, hd, hname, -⟩ := hwf.lookup_eq_some.mp h
      exact ⟨d, hd, hname⟩
    kept := fun name t s' h hsteps =>
      hsteps.invariant (P := fun s₁ => s₁.lookup name = some t) (fun _ op => lookup_apply op) h
    own := own
    distinct := by
      intro t d u e hd hnd he hne hname
      have ht := own t d hd hnd
      rw [hname, own u e he hne] at ht
      exact (Option.some.inj ht).symm
    array := by
      intro t d x hd _
      obtain ⟨u, hu, hle⟩ := hwf.exists_lookup hd
      obtain ⟨e, he, hname, hmin⟩ := hwf.lookup_eq_some.mp hu
      refine ⟨u, e, hu, he, hname, hle, ?_, ?_⟩
      · rintro rfl ⟨v, f, hf, hfname, hlt⟩
        exact absurd (hmin v f hf hfname) (Nat.not_le.mpr hlt)
      · intro hfirst
        by_contra hne
        have hlt : u.index < t.index := Nat.lt_of_le_of_ne hle (mt TypeHandle.ext hne)
        exact hfirst ⟨u, e, he, hname, hlt⟩ }

/-- The class that was there first keeps the name of the array type over dogs, and the array type
over that array type gives way to the one over the class. -/
theorem namesTypes_namesakes :
    namesakes.Reachable ∧ namesakes.NamesTypes ∧ namesakes.lookup "Dog[]" = some ⟨101⟩ ∧
    (∃ d, namesakes.decl? ⟨102⟩ = some d ∧ d.name = "Dog[]") ∧
    ∃ d, namesakes.decl? ⟨104⟩ = some d ∧ namesakes.lookup d.name ≠ some ⟨104⟩ := by
  have h := namesakes_reachable.namesTypes
  refine ⟨namesakes_reachable, h, h.own ⟨101⟩ _ rfl nofun, ⟨_, rfl, rfl⟩, _, rfl, ?_⟩
  obtain ⟨u, e, hu, -, -, -, hfirst⟩ := h.array ⟨104⟩ _ ⟨102⟩ rfl rfl
  rw [hu]
  rintro ⟨⟩
  exact hfirst.mp rfl ⟨⟨103⟩, _, rfl, rfl, by decide⟩

end Store

end BestFit
