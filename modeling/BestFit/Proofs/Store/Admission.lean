import BestFit.Proofs.Store.Additions

/-!
# Admission of definitions

A definition is checked against one rule after the other. `Breaks` says what each rule asks and
which error its breach is reported with, `Rule.place` in what order the rules are looked at.
A check settles rules if it succeeds exactly where none of them is broken, and otherwise reports
the first that is (`Settles`); checks made one after the other settle the rules of both
(`Settles.bind`), and `settles_check` puts them together. `Adds` says what an admitted definition
adds. Main statement: `declares`.
-/
namespace BestFit.Store

/-- The rules for a definition. Interfaces, constructors and their parameters are counted from
zero. -/
inductive Rule where
  | superclass
  | interfaces (i : Nat)
  | enclosing
  | ctors
  | params (i j : Nat)
  | variadic (i : Nat)
  | signatures (i : Nat)
  | name

/-- The place of a rule, as in an outline: places are compared number by number. The rules for a
constructor stand together, those for its parameters first. -/
def Rule.place : Rule → List Nat
  | superclass => [0]
  | interfaces i => [1, i]
  | enclosing => [2]
  | ctors => [3]
  | params i j => [4, i, 0, j]
  | variadic i => [4, i, 1]
  | signatures i => [4, i, 2]
  | name => [5]

variable {ω π : Type} {s s' : Store ω π} {d : Definition ω π} {r r' : Rule} {e e' : DeclareError}
  {t : TypeHandle}

/-- A definition breaks a rule, which is reported with the error. -/
inductive Breaks (s : Store ω π) (d : Definition ω π) : Rule → DeclareError → Prop
  | unknownSuperclass {u : TypeHandle} (hu : d.superclass = some u) (h : s.decl? u = none) :
      Breaks s d .superclass (.unknownType d.name u)
  | superclass {u : TypeHandle} {c : TypeDecl} (hu : d.superclass = some u)
      (hc : s.decl? u = some c) (h : c.shape = .classType → c.modifiers.isFinal = true) :
      Breaks s d .superclass (.notExtensible d.name c.name)
  | unknownInterface {i : Nat} {u : TypeHandle} (hu : d.interfaces[i]? = some u)
      (h : s.decl? u = none) : Breaks s d (.interfaces i) (.unknownType d.name u)
  | interface {i : Nat} {u : TypeHandle} {c : TypeDecl} (hu : d.interfaces[i]? = some u)
      (hc : s.decl? u = some c) (h : c.shape ≠ .interface) :
      Breaks s d (.interfaces i) (.notAnInterface d.name c.name)
  | enclosing {u : TypeHandle} (hu : d.enclosing = some u) (h : s.catalog.contains u = false) :
      Breaks s d .enclosing (.unknownType d.name u)
  | ctors (hsort : d.sort = .interface) (h : d.ctors ≠ []) :
      Breaks s d .ctors (.ctorOfInterface d.name)
  | params {i j : Nat} {k : CtorDefinition ω π} {p : TypeHandle} (hk : d.ctors[i]? = some k)
      (hp : k.params[j]? = some p) (h : s.canHold p = false) :
      Breaks s d (.params i j) (.unknownType d.name p)
  | variadic {i : Nat} {k : CtorDefinition ω π} (hk : d.ctors[i]? = some k)
      (hv : k.modifiers.isVariadic = true)
      (h : k.params.getLast?.bind s.catalog.component? = none) :
      Breaks s d (.variadic i) (.noCollectingArray d.name)
  | signatures {i j : Nat} {k l : CtorDefinition ω π} (hk : d.ctors[i]? = some k)
      (hl : d.ctors[j]? = some l) (hji : j < i) (h : l.params = k.params) :
      Breaks s d (.signatures i) (.repeatedSignature d.name (s.catalog.signature k.params))
  | name (h : s.lookup d.name ≠ none) : Breaks s d .name (.nameTaken d.name)

/-- The breach of a rule is reported with one error. -/
theorem Breaks.unique (h : s.Breaks d r e) (h' : s.Breaks d r e') : e = e' := by
  cases h <;> cases h' <;> simp_all

/-! ## Settling rules -/

/-- A rule that is broken, among some rules, before every other of them. -/
structure First (s : Store ω π) (d : Definition ω π) (A : Rule → Prop) (r : Rule)
    (e : DeclareError) : Prop where
  mem : A r
  breaks : s.Breaks d r e
  first : ∀ r' e', A r' → s.Breaks d r' e' → r = r' ∨ r.place < r'.place

/-- A check settles some rules: it succeeds where none of them is broken, and reports the first
that is. -/
def Settles (s : Store ω π) (d : Definition ω π) (A : Rule → Prop) (x : Except DeclareError Unit) :
    Prop :=
  match x with
  | .ok () => ∀ r e, A r → ¬s.Breaks d r e
  | .error e => ∃ r, s.First d A r e

namespace Settles

variable {A B : Rule → Prop} {x y : Except DeclareError Unit}

theorem congr (h : s.Settles d A x) (hAB : ∀ r, A r ↔ B r) : s.Settles d B x := by
  have heq : A = B := funext fun r => propext (hAB r)
  rwa [← heq]

/-- A check that asks nothing settles rules that are not broken. -/
theorem pure (h : ∀ r e, A r → ¬s.Breaks d r e) : s.Settles d A (.ok ()) := h

/-- A check of one rule. -/
theorem error (h : s.Breaks d r e) (hr : ∀ r', A r' ↔ r' = r) : s.Settles d A (.error e) :=
  ⟨r, (hr r).mpr rfl, h, fun r' _ hr' _ => .inl ((hr r').mp hr').symm⟩

/-- Checks made one after the other settle the rules of both, if those of the first come
first. -/
theorem bind (hx : s.Settles d A x) (hy : s.Settles d B y)
    (hAB : ∀ r r', A r → B r' → r.place < r'.place) :
    s.Settles d (fun r => A r ∨ B r) (x >>= fun _ => y) := by
  cases x with
  | error e =>
    obtain ⟨r, hmem, hbreaks, hfirst⟩ := hx
    refine ⟨r, .inl hmem, hbreaks, fun r' e' hr' h' => ?_⟩
    rcases hr' with hr' | hr'
    · exact hfirst r' e' hr' h'
    · exact .inr (hAB r r' hmem hr')
  | ok _ =>
    cases y with
    | error e =>
      obtain ⟨r, hmem, hbreaks, hfirst⟩ := hy
      refine ⟨r, .inr hmem, hbreaks, fun r' e' hr' h' => ?_⟩
      rcases hr' with hr' | hr'
      · exact absurd h' (hx r' e' hr')
      · exact hfirst r' e' hr' h'
    | ok _ =>
      intro r e hr
      rcases hr with hr | hr
      · exact hx r e hr
      · exact hy r e hr

/-- A check of the element at one place, followed by one of all later elements. -/
theorem cons {R : Nat → Rule → Prop} {n : Nat} (hx : s.Settles d (R n) x)
    (hy : s.Settles d (fun r => ∃ i, n + 1 ≤ i ∧ R i r) y)
    (hR : ∀ i j r r', i < j → R i r → R j r' → r.place < r'.place) :
    s.Settles d (fun r => ∃ i, n ≤ i ∧ R i r) (x >>= fun _ => y) := by
  refine (hx.bind hy ?_).congr fun r => ?_
  · intro r r' hr hr'
    obtain ⟨j, hj, hr'⟩ := hr'
    exact hR n j r r' hj hr hr'
  · constructor
    · intro h
      rcases h with h | ⟨i, hi, h⟩
      · exact ⟨n, Nat.le_refl n, h⟩
      · exact ⟨i, Nat.le_of_succ_le hi, h⟩
    · intro h
      obtain ⟨i, hi, h⟩ := h
      rcases Nat.eq_or_lt_of_le hi with rfl | hlt
      · exact .inl h
      · exact .inr ⟨i, hlt, h⟩

end Settles

/-! ## The checks -/

theorem getElem?_of_drop_eq_cons {α : Type} {l l' : List α} {a : α} {n : Nat}
    (h : l.drop n = a :: l') : l[n]? = some a ∧ l.drop (n + 1) = l' := by
  constructor
  · rw [← List.head?_drop, h, List.head?_cons]
  · rw [← List.tail_drop, h, List.tail_cons]

theorem settles_superclass :
    s.Settles d (· = .superclass) (d.superclass.forM (s.catalog.checkSuperclass d.name)) := by
  cases hu : d.superclass with
  | none =>
    refine .pure fun r e hr h => ?_
    subst hr
    cases h <;> simp_all
  | some u =>
    show s.Settles d _ (s.catalog.checkSuperclass d.name u)
    simp only [Catalog.checkSuperclass, catalog_decl?]
    cases hc : s.decl? u with
    | none => exact .error (.unknownSuperclass hu hc) fun _ => Iff.rfl
    | some c =>
      by_cases hclass : c.shape = .classType ∧ !c.modifiers.isFinal
      · simp only [if_pos hclass]
        refine .pure fun r e hr h => ?_
        subst hr
        cases h <;> simp_all
      · simp only [if_neg hclass]
        exact .error (.superclass hu hc (by simpa using hclass)) fun _ => Iff.rfl

/-- One interface. -/
theorem settles_interface {i : Nat} {u : TypeHandle} (hu : d.interfaces[i]? = some u) :
    s.Settles d (· = .interfaces i) (s.catalog.checkInterface d.name u) := by
  simp only [Catalog.checkInterface, catalog_decl?]
  cases hc : s.decl? u with
  | none => exact .error (.unknownInterface hu hc) fun _ => Iff.rfl
  | some c =>
    by_cases hint : c.shape = .interface
    · simp only [if_pos hint]
      refine .pure fun r e hr h => ?_
      subst hr
      cases h <;> simp_all
    · simp only [if_neg hint]
      exact .error (.interface hu hc hint) fun _ => Iff.rfl

/-- The interfaces from some place on. -/
theorem settles_interfaces {n : Nat} {us : List TypeHandle} (hus : d.interfaces.drop n = us) :
    s.Settles d (fun r => ∃ i, n ≤ i ∧ r = .interfaces i) (us.forM (s.catalog.checkInterface d.name)) := by
  induction us generalizing n with
  | nil =>
    refine .pure fun r e hr h => ?_
    obtain ⟨i, hi, rfl⟩ := hr
    have hnone : d.interfaces[i]? = none :=
      List.getElem?_eq_none (Nat.le_trans (List.drop_eq_nil_iff.mp hus) hi)
    cases h <;> simp_all
  | cons u us ih =>
    obtain ⟨hu, hrest⟩ := getElem?_of_drop_eq_cons hus
    refine (settles_interface hu).cons (ih hrest) ?_
    rintro i j _ _ hij rfl rfl
    simp [Rule.place, List.cons_lt_cons_iff, hij]

theorem settles_enclosing :
    s.Settles d (· = .enclosing) (d.enclosing.forM (s.catalog.checkEnclosing d.name)) := by
  cases hu : d.enclosing with
  | none =>
    refine .pure fun r e hr h => ?_
    subst hr
    cases h
    simp_all
  | some u =>
    show s.Settles d _ (s.catalog.checkEnclosing d.name u)
    unfold Catalog.checkEnclosing
    cases hc : s.catalog.contains u with
    | false => exact .error (.enclosing hu hc) fun _ => Iff.rfl
    | true =>
      refine .pure fun r e hr h => ?_
      subst hr
      cases h
      simp_all

/-- The rules for one constructor. -/
def Rule.IsOfCtor (i : Nat) (r : Rule) : Prop :=
  (∃ j, r = .params i j) ∨ r = .variadic i ∨ r = .signatures i

/-- One constructor, given the parameter lists of those before it. -/
theorem settles_ctor {i : Nat} {k : CtorDefinition ω π} {earlier : List (List TypeHandle)}
    (hk : d.ctors[i]? = some k)
    (hearlier : ∀ ps, ps ∈ earlier ↔ ∃ j l, j < i ∧ d.ctors[j]? = some l ∧ l.params = ps) :
    s.Settles d (Rule.IsOfCtor i) (s.catalog.checkCtor d.name earlier k) := by
  simp only [Catalog.checkCtor, catalog_canHold]
  cases hf : k.params.find? fun t => !s.canHold t with
  | some p =>
    obtain ⟨hp, j, hj, rfl, hbefore⟩ := List.find?_eq_some_iff_getElem.mp hf
    refine ⟨.params i j, .inl ⟨j, rfl⟩, .params hk (List.getElem?_eq_getElem hj) (by simpa using hp),
      fun r' e' hr' h' => ?_⟩
    rcases hr' with ⟨j', rfl⟩ | rfl | rfl
    · cases h' with
      | @params _ _ k' p' hk' hp' hno =>
        obtain rfl := Option.some.inj (hk.symm.trans hk')
        obtain ⟨hj', rfl⟩ := List.getElem?_eq_some_iff.mp hp'
        rcases Nat.lt_trichotomy j j' with hlt | rfl | hgt
        · exact .inr (by simp [Rule.place, List.cons_lt_cons_iff, hlt])
        · exact .inl rfl
        · have hyes := hbefore j' hgt
          simp [hno] at hyes
    · exact .inr (by simp [Rule.place, List.cons_lt_cons_iff])
    · exact .inr (by simp [Rule.place, List.cons_lt_cons_iff])
  | none =>
    have hparams : ∀ j e, ¬s.Breaks d (.params i j) e := by
      intro j e h
      cases h with
      | @params _ _ k' p hk' hp hno =>
        obtain rfl := Option.some.inj (hk.symm.trans hk')
        have hyes := List.find?_eq_none.mp hf p (List.mem_of_getElem? hp)
        simp [hno] at hyes
    by_cases hv : k.modifiers.isVariadic ∧ (k.params.getLast?.bind s.catalog.component?).isNone
    · simp only [if_pos hv]
      refine ⟨.variadic i, .inr (.inl rfl), .variadic hk hv.1 (by simpa using hv.2),
        fun r' e' hr' h' => ?_⟩
      rcases hr' with ⟨j, rfl⟩ | rfl | rfl
      · exact absurd h' (hparams j e')
      · exact .inl rfl
      · exact .inr (by simp [Rule.place, List.cons_lt_cons_iff])
    · have hvariadic : ∀ e, ¬s.Breaks d (.variadic i) e := by
        intro e h
        cases h with
        | variadic hk' hv' hx =>
          obtain rfl := Option.some.inj (hk.symm.trans hk')
          exact hv ⟨hv', by simpa using hx⟩
      simp only [if_neg hv]
      by_cases he : k.params ∈ earlier
      · simp only [if_pos he]
        obtain ⟨j, l, hji, hl, hlk⟩ := (hearlier _).mp he
        refine ⟨.signatures i, .inr (.inr rfl), .signatures hk hl hji hlk, fun r' e' hr' h' => ?_⟩
        rcases hr' with ⟨j, rfl⟩ | rfl | rfl
        · exact absurd h' (hparams j e')
        · exact absurd h' (hvariadic e')
        · exact .inl rfl
      · simp only [if_neg he]
        refine .pure fun r e hr h => ?_
        rcases hr with ⟨j, rfl⟩ | rfl | rfl
        · exact hparams j e h
        · exact hvariadic e h
        · cases h with
          | signatures hk' hl hji hlk =>
            obtain rfl := Option.some.inj (hk.symm.trans hk')
            exact he ((hearlier _).mpr ⟨_, _, hji, hl, hlk⟩)

/-- The constructors from some place on, given the parameter lists of those before. -/
theorem settles_ctors {n : Nat} {earlier : List (List TypeHandle)} {ks : List (CtorDefinition ω π)}
    (hks : d.ctors.drop n = ks)
    (hearlier : ∀ ps, ps ∈ earlier ↔ ∃ j l, j < n ∧ d.ctors[j]? = some l ∧ l.params = ps) :
    s.Settles d (fun r => ∃ i, n ≤ i ∧ r.IsOfCtor i) (s.catalog.checkCtors d.name earlier ks) := by
  induction ks generalizing n earlier with
  | nil =>
    refine .pure fun r e hr h => ?_
    obtain ⟨i, hi, hr⟩ := hr
    have hnone : d.ctors[i]? = none :=
      List.getElem?_eq_none (Nat.le_trans (List.drop_eq_nil_iff.mp hks) hi)
    rcases hr with ⟨j, rfl⟩ | rfl | rfl <;> cases h <;> simp_all
  | cons k ks ih =>
    obtain ⟨hk, hrest⟩ := getElem?_of_drop_eq_cons hks
    refine (settles_ctor hk hearlier).cons (ih hrest fun ps => ?_) ?_
    · rw [List.mem_cons, hearlier]
      constructor
      · rintro (rfl | ⟨j, l, hj, hl⟩)
        · exact ⟨n, k, Nat.lt_succ_self n, hk, rfl⟩
        · exact ⟨j, l, Nat.lt_succ_of_lt hj, hl⟩
      · rintro ⟨j, l, hj, hl, rfl⟩
        rcases Nat.lt_succ_iff_lt_or_eq.mp hj with hj | rfl
        · exact .inr ⟨j, l, hj, hl, rfl⟩
        · obtain rfl := Option.some.inj (hk.symm.trans hl)
          exact .inl rfl
    · rintro i j r r' hij hr hr'
      rcases hr with ⟨a, rfl⟩ | rfl | rfl <;> rcases hr' with ⟨b, rfl⟩ | rfl | rfl <;>
        simp [Rule.place, List.cons_lt_cons_iff, hij]

theorem settles_ctorsOfInterface :
    s.Settles d (· = .ctors) (if d.sort = .interface ∧ !d.ctors.isEmpty then
      .error (.ctorOfInterface d.name) else .ok ()) := by
  by_cases h : d.sort = .interface ∧ !d.ctors.isEmpty
  · rw [if_pos h]
    exact .error (.ctors h.1 (by simpa using h.2)) fun _ => Iff.rfl
  · rw [if_neg h]
    refine .pure fun r e hr hbreaks => ?_
    subst hr
    cases hbreaks
    simp_all

theorem settles_name :
    s.Settles d (· = .name) (if (s.lookup d.name).isSome then .error (.nameTaken d.name)
      else .ok ()) := by
  cases h : s.lookup d.name with
  | some t => exact .error (.name (by simp [h])) fun _ => Iff.rfl
  | none =>
    refine .pure fun r e hr hbreaks => ?_
    subst hr
    cases hbreaks
    contradiction

/-- The rules whose place begins with a number. -/
def Rule.InStage (i : Nat) (r : Rule) : Prop := r.place.head? = some i

theorem Rule.place_lt_of_inStage {i j : Nat} (hij : i < j) (hr : r.InStage i)
    (hr' : r'.InStage j) : r.place < r'.place := by
  obtain ⟨l, hl⟩ := List.head?_eq_some_iff.mp hr
  obtain ⟨l', hl'⟩ := List.head?_eq_some_iff.mp hr'
  rw [hl, hl', List.cons_lt_cons_iff]
  exact .inl hij

/-- The check, as a sequence of checks. -/
theorem check_eq (s : Store ω π) (d : Definition ω π) :
    s.check d = (d.superclass.forM (s.catalog.checkSuperclass d.name) >>= fun _ =>
      d.interfaces.forM (s.catalog.checkInterface d.name) >>= fun _ =>
      d.enclosing.forM (s.catalog.checkEnclosing d.name) >>= fun _ =>
      (if d.sort = .interface ∧ !d.ctors.isEmpty then .error (.ctorOfInterface d.name)
        else .ok ()) >>= fun _ =>
      s.catalog.checkCtors d.name [] d.ctors >>= fun _ =>
      if (s.lookup d.name).isSome then .error (.nameTaken d.name) else .ok ()) := by
  unfold check Catalog.check
  by_cases hsort : d.sort = .interface ∧ !d.ctors.isEmpty
  · simp only [if_pos hsort, bind_assoc]
    split <;> rfl
  · simp only [if_neg hsort, bind_assoc]
    split <;> rfl

/-- The check settles all the rules. -/
theorem settles_check (s : Store ω π) (d : Definition ω π) :
    s.Settles d (fun _ => True) (s.check d) := by
  have hstages : ∀ i j (r r' : Rule), i < j → r.InStage i → r'.InStage j → r.place < r'.place :=
    fun i j r r' hij hr hr' => Rule.place_lt_of_inStage hij hr hr'
  have hinterfaces : s.Settles d (fun r => ∃ i, 0 ≤ i ∧ r = .interfaces i)
      (d.interfaces.forM (s.catalog.checkInterface d.name)) := settles_interfaces rfl
  have hctors : s.Settles d (fun r => ∃ i, 0 ≤ i ∧ r.IsOfCtor i)
      (s.catalog.checkCtors d.name [] d.ctors) := settles_ctors rfl (by simp)
  have hall : s.Settles d (fun r => ∃ i, 0 ≤ i ∧ r.InStage i) (s.check d) := by
    rw [check_eq]
    refine .cons (settles_superclass.congr ?_) (.cons (hinterfaces.congr ?_)
      (.cons (settles_enclosing.congr ?_) (.cons (settles_ctorsOfInterface.congr ?_)
      (.cons (hctors.congr ?_) (settles_name.congr ?_) hstages) hstages) hstages) hstages) hstages
    all_goals
      intro r
      cases r <;> simp [Rule.InStage, Rule.IsOfCtor, Rule.place]
  exact hall.congr fun r => by cases r <;> simp [Rule.InStage, Rule.place]

/-! ## Refusal -/

/-- The first broken rule decides on the error. -/
theorem First.unique {A : Rule → Prop} (h : s.First d A r e) (h' : s.First d A r' e') : e = e' := by
  have hr : r = r' := by
    rcases h.first r' e' h'.mem h'.breaks with hr | hlt
    · exact hr
    · rcases h'.first r e h.mem h.breaks with hr | hgt
      · exact hr.symm
      · exact absurd hgt (List.lt_asymm hlt)
  subst hr
  exact h.breaks.unique h'.breaks

/-- The check fails for the first of the rules that are broken. -/
theorem check_eq_error : s.check d = .error e ↔ ∃ r, s.First d (fun _ => True) r e := by
  have hsettles := s.settles_check d
  constructor
  · intro h
    rw [h] at hsettles
    exact hsettles
  · intro h
    obtain ⟨r, hr⟩ := h
    cases hx : s.check d with
    | ok _ =>
      rw [hx] at hsettles
      exact absurd hr.breaks (hsettles r e trivial)
    | error e' =>
      rw [hx] at hsettles
      obtain ⟨r', hr'⟩ := hsettles
      rw [hr'.unique hr]

/-- What is admitted breaks no rule, and what breaks none is admitted. -/
theorem admits_iff_not_breaks : s.Admits d ↔ ∀ r e, ¬s.Breaks d r e := by
  have hsettles := s.settles_check d
  rw [← check_eq_ok]
  constructor
  · intro h r e
    rw [h] at hsettles
    exact hsettles r e trivial
  · intro h
    cases hx : s.check d with
    | ok _ => rfl
    | error e =>
      obtain ⟨r, hr⟩ := check_eq_error.mp hx
      exact absurd hr.breaks (h r e)

/-! ## Addition -/

/-- What a definition adds to a store, and what it leaves as it is. -/
structure Adds (s : Store ω π) (d : Definition ω π) (t : TypeHandle) (s' : Store ω π) : Prop where
  handle : t = s.nextType
  isNew : s.decl? t = none
  type : s'.decl? t = some
    { handle := t, name := d.name, shape := d.sort.shape, modifiers := d.modifiers,
      superclass := d.superclass, interfaces := d.interfaces, enclosing := d.enclosing,
      ctors := (List.range d.ctors.length).map s.nextCtor }
  otherTypes : ∀ u, u ≠ t → s'.decl? u = s.decl? u
  /-- The constructors get the handles that are due, in the order of the definition. -/
  ctors : ∀ i k, d.ctors[i]? = some k → s.entry? (s.nextCtor i) = none ∧
    s'.entry? (s.nextCtor i) = some
      { ctor := { handle := s.nextCtor i, owner := t, params := k.params,
                  modifiers := k.modifiers }
        body := k.body }
  otherCtors : ∀ j, (∀ i, i < d.ctors.length → j ≠ s.nextCtor i) → s'.entry? j = s.entry? j
  name : s'.lookup d.name = some t
  otherNames : ∀ n, n ≠ d.name → s'.lookup n = s.lookup n
  arrays : ∀ x, s'.array? x = s.array? x
  size : s'.size = s.size + 1
  nextType : s'.nextType.index = s.nextType.index + 1
  nextCtor : ∀ i, s'.nextCtor i = s.nextCtor (d.ctors.length + i)
  frame : s'.serial = s.serial ∧ s'.unlocked = s.unlocked ∧ s'.made = s.made ∧
    s'.world = s.world

theorem lookup_declared (s : Store ω π) (d : Definition ω π) (n : String) :
    (s.declared d).lookup n =
      (s.lookup n).or (if d.name = n then some s.nextType else none) :=
  s.lookup_push (s.declOf d) n

/-- A definition introduces no array type. -/
theorem array?_declared (s : Store ω π) (d : Definition ω π) (x : TypeHandle) :
    (s.declared d).array? x = s.array? x := by
  have hno : (s.declOf d).component? = none := by
    rw [declOf, Definition.declaredAs]
    cases d.sort <;> rfl
  have hpush := s.array?_push (s.declOf d) x
  rw [hno, if_neg (Option.some_ne_none x).symm, Option.or_none] at hpush
  exact hpush

/-- Handles from the first one due on are given to no constructor. -/
theorem entry?_eq_none {j : CtorHandle} (hj : (s.nextCtor 0).index ≤ j.index) :
    s.entry? j = none := by
  rw [Option.eq_none_iff_forall_ne_some]
  intro e he
  have hlt := index_lt_nextCtor he
  omega

theorem adds_declared (hd : s.Admits d) : s.Adds d s.nextType (s.declared d) where
  handle := rfl
  isNew := by
    rw [Option.eq_none_iff_forall_ne_some]
    intro e he
    exact Nat.lt_irrefl _ (index_lt_nextType he)
  type := by
    rw [decl?_declared, if_pos rfl]
    rfl
  otherTypes u hu := by rw [decl?_declared, if_neg hu]
  ctors i k hk := ⟨entry?_eq_none (Nat.le_add_right _ _), entry?_nextCtor s d hk⟩
  otherCtors j hj := by
    rw [entry?_declared]
    by_cases hlow : j.index < (s.nextCtor 0).index
    · rw [if_pos hlow]
    · have hi : j = s.nextCtor (j.index - (s.nextCtor 0).index) := by
        cases j
        simp only [Store.nextCtor, CtorHandle.mk.injEq] at hlow ⊢
        omega
      have hnone : d.ctors[j.index - (s.nextCtor 0).index]? = none := by
        rw [List.getElem?_eq_none_iff]
        by_contra hlt
        exact hj _ (Nat.lt_of_not_le hlt) hi
      rw [if_neg hlow, hnone, entry?_eq_none (Nat.le_of_not_lt hlow), Option.map_none]
  name := by rw [lookup_declared, hd.name, if_pos rfl, Option.none_or]
  otherNames n hn := by rw [lookup_declared, if_neg hn.symm, Option.or_none]
  arrays := s.array?_declared d
  size := by simp [Store.size, Store.decls, declared, Nat.add_assoc]
  nextType := by simp [Store.nextType, declared, Nat.add_assoc]
  nextCtor i := by
    have hsize : (s.declared d).ctors.size = s.ctors.size + d.ctors.length := by
      simp [declared, storedCtors, ← Array.length_toList]
    simp only [Store.nextCtor, hsize, Nat.add_assoc]
  frame := ⟨rfl, rfl, rfl, rfl⟩

/-! ## All of it -/

/-- What comes of declaring a definition. -/
structure Declares (s : Store ω π) (d : Definition ω π) : Prop where
  accepted : (∃ t s', s.declare d = .ok (t, s')) ↔ s.Admits d
  admitted : s.Admits d ↔ ∀ r e, ¬s.Breaks d r e
  /-- The error is that of the first rule that is broken. -/
  refused : ∀ e, s.declare d = .error e ↔ ∃ r, s.Breaks d r e ∧
    ∀ r' e', s.Breaks d r' e' → r = r' ∨ r.place < r'.place
  unchanged : ∀ e, s.declare d = .error e → s.apply (.declare d) = s
  added : ∀ t s', s.declare d = .ok (t, s') → s.apply (.declare d) = s' ∧ s.Adds d t s'

theorem declares (s : Store ω π) (d : Definition ω π) : s.Declares d where
  accepted := by
    simp only [declare_eq_ok]
    constructor
    · intro h
      obtain ⟨t, s', hd, -⟩ := h
      exact hd
    · intro hd
      exact ⟨_, _, hd, rfl, rfl⟩
  admitted := admits_iff_not_breaks
  refused e := by
    have hdeclare : s.declare d = .error e ↔ s.check d = .error e := by
      rw [declare]
      cases hx : s.check d with
      | error e' => simp [bind, Except.bind]
      | ok _ => simp [bind, Except.bind, pure, Except.pure]
    rw [hdeclare, check_eq_error]
    constructor
    · intro h
      obtain ⟨r, hr⟩ := h
      exact ⟨r, hr.breaks, fun r' e' h' => hr.first r' e' trivial h'⟩
    · intro h
      obtain ⟨r, hr, hfirst⟩ := h
      exact ⟨r, trivial, hr, fun r' e' _ h' => hfirst r' e' h'⟩
  unchanged e h := by simp [apply, h]
  added t s' h := by
    refine ⟨by simp [apply, h], ?_⟩
    obtain ⟨hd, rfl, rfl⟩ := declare_eq_ok.mp h
    exact adds_declared hd

/-- A definition that breaks three rules is refused for its constructor's parameter, which
comes before the repeated signature and the name. -/
example : kennels.declare
    { name := "Dog", sort := .classType, superclass := some ⟨100⟩,
      ctors := [⟨[.void], {}, notingBody⟩, ⟨[.void], {}, notingBody⟩] } =
    .error (.unknownType "Dog" .void) := rfl

end BestFit.Store
