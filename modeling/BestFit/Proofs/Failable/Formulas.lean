import BestFit.Failable.Formula
import BestFit.Proofs.Failable.Recording
import Mathlib.Logic.Function.Basic

/-!
# Formulas run what they need

A test of a formula is told by its place, the way to it from the top; so one test that stands at
two places counts as two. `Course` follows the run of a formula call by call, and `Evaluates` says
what such a run is: it calls tests from left to right, leaves out those whose outcome cannot matter
any more, and gives the truth value, or the error of the test that failed. Main statement:
`Formula.shortCircuits`.
-/
namespace BestFit.Formula

open Failable (InTurn recorded)

variable {L α σ ε : Type}

/-! ## Places -/

/-- A turn on the way from a formula to a part of it. -/
inductive Turn where
  | inner | left | right
deriving DecidableEq, Repr

/-- A place in a formula: the turns that lead there from the top. -/
abbrev Place := List Turn

/-- The part of a formula at a place. -/
def part? : Formula L → Place → Option (Formula L)
  | p, [] => some p
  | negate p, .inner :: w => p.part? w
  | and p _, .left :: w => p.part? w
  | and _ q, .right :: w => q.part? w
  | or p _, .left :: w => p.part? w
  | or _ q, .right :: w => q.part? w
  | _, _ :: _ => none

/-- The first place is to the left of the second: where the ways part, it turns left and the
other one right. -/
inductive IsLeftOf : Place → Place → Prop
  | parted (w w' : Place) : IsLeftOf (.left :: w) (.right :: w')
  | within (t : Turn) {w w' : Place} (h : IsLeftOf w w') : IsLeftOf (t :: w) (t :: w')

/-- Puts other tests in place of those of a formula. -/
def map {M : Type} (f : L → M) : Formula L → Formula M
  | leaf l => leaf (f l)
  | negate p => negate (p.map f)
  | and p q => and (p.map f) (q.map f)
  | or p q => or (p.map f) (q.map f)

/-- The formula of the same form whose tests are their own places. -/
def places : Formula L → Formula Place
  | leaf _ => leaf []
  | negate p => negate (p.places.map (.inner :: ·))
  | and p q => and (p.places.map (.left :: ·)) (q.places.map (.right :: ·))
  | or p q => or (p.places.map (.left :: ·)) (q.places.map (.right :: ·))

/-- The truth value of a formula under a valuation of its places. -/
def value (v : Place → Bool) (p : Formula L) : Bool := p.places.eval v

/-- A valuation as seen from one turn down. -/
def after (t : Turn) (v : Place → Bool) : Place → Bool := fun w => v (t :: w)

/-! ## Calls -/

/-- A call of the test at a place, with what the test said. -/
structure Call (L ε : Type) where
  place : Place
  test : L
  said : Except ε Bool

namespace Call

/-- A call as seen from one turn up. -/
def under (t : Turn) (c : Call L ε) : Call L ε := { c with place := t :: c.place }

/-- The valuation has at the place what the test said there. -/
def AgreesWith (c : Call L ε) (v : Place → Bool) : Prop := ∀ b, c.said = .ok b → v c.place = b

/-- The test failed at the place. -/
def Fails (c : Call L ε) : Prop := ∃ e, c.said = .error e

end Call

/-- The place is to the right in a conjunction whose left side is false, or in a disjunction whose
left side is true. -/
def IsSpared (v : Place → Bool) (p : Formula L) (w : Place) : Prop :=
  ∃ u x l r, w = u ++ .right :: x ∧
    (p.part? u = some (.and l r) ∧ l.value (fun y => v (u ++ .left :: y)) = false ∨
      p.part? u = some (.or l r) ∧ l.value (fun y => v (u ++ .left :: y)) = true)

/-- The truth value depends on the place, if the others are as in the valuation. -/
def TurnsOn (v : Place → Bool) (p : Formula L) (w : Place) : Prop :=
  p.value (Function.update v w true) ≠ p.value (Function.update v w false)

/-- The calls are those of a run of the formula, and `r` is what comes of it. -/
structure Evaluates (p : Formula L) (calls : List (Call L ε)) (r : Except ε Bool) : Prop where
  tests : ∀ c ∈ calls, p.part? c.place = some (.leaf c.test)
  leftToRight : calls.Pairwise fun c d => IsLeftOf c.place d.place
  /-- A test is left out exactly if what was said spares it, or if it comes after a failure. -/
  skips : ∀ v, (∀ c ∈ calls, c.AgreesWith v) → ∀ w l, p.part? w = some (.leaf l) →
    ((∀ c ∈ calls, c.place ≠ w) ↔
      p.IsSpared v w ∨ ∃ c ∈ calls, c.Fails ∧ IsLeftOf c.place w)
  /-- A test is called only if, after all that was said to the left of it, its outcome could still
  make a difference. -/
  needs : ∀ c ∈ calls, ∃ v, (∀ d ∈ calls, IsLeftOf d.place c.place → d.AgreesWith v) ∧
    p.TurnsOn v c.place
  fails : ∀ c ∈ calls, ∀ e, c.said = .error e → r = .error e
  /-- Without a failure it is the truth value, whatever the tests left out would say. -/
  answers : (∀ c ∈ calls, ¬c.Fails) → ∀ v, (∀ c ∈ calls, c.AgreesWith v) → r = .ok (p.value v)

/-! ## Conjunction and disjunction alike -/

/-- Joins two formulas so that the right one decides where the left one is `go`, and otherwise the
value is the opposite. -/
def join (go : Bool) (p q : Formula L) : Formula L :=
  match go with
  | true => and p q
  | false => or p q

section

variable {p q : Formula L} {v : Place → Bool} {w w' : Place} {go : Bool} {t : Turn}

theorem eval_map {M : Type} (f : L → M) (v : M → Bool) :
    (p.map f).eval v = p.eval fun l => v (f l) := by
  induction p with
  | leaf l => rfl
  | negate p ih => rw [map, eval, eval, ih]
  | and p q ihp ihq | or p q ihp ihq => rw [map, eval, eval, ihp, ihq]

@[simp] theorem value_leaf (l : L) : (leaf l).value v = v [] := rfl

@[simp] theorem value_negate : (negate p).value v = !p.value (after .inner v) := by
  rw [value, places, eval, eval_map]
  rfl

theorem value_join : (join go p q).value v =
    if p.value (after .left v) = go then q.value (after .right v) else !go := by
  have hand (b c : Bool) : (b && c) = if b = true then c else !true := by cases b <;> rfl
  have hor (b c : Bool) : (b || c) = if b = false then c else !false := by cases b <;> rfl
  cases go with
  | true => simp only [join, value, places, eval, eval_map, hand]; rfl
  | false => simp only [join, value, places, eval, eval_map, hor]; rfl

@[simp] theorem part?_nil : p.part? [] = some p := by rw [part?]

@[simp] theorem part?_join_left : (join go p q).part? (.left :: w) = p.part? w := by
  cases go <;> rfl

@[simp] theorem part?_join_right : (join go p q).part? (.right :: w) = q.part? w := by
  cases go <;> rfl

/-- The tests of a joined formula are those of its sides. -/
theorem exists_of_part?_join {l : L} (h : (join go p q).part? w = some (.leaf l)) :
    (∃ w', w = .left :: w' ∧ p.part? w' = some (.leaf l)) ∨
      ∃ w', w = .right :: w' ∧ q.part? w' = some (.leaf l) := by
  cases w with
  | nil => cases go <;> cases h
  | cons t w' =>
    cases t with
    | inner => cases go <;> cases h
    | left => exact .inl ⟨w', rfl, part?_join_left.symm.trans h⟩
    | right => exact .inr ⟨w', rfl, part?_join_right.symm.trans h⟩

theorem exists_of_part?_negate {l : L} (h : (negate p).part? w = some (.leaf l)) :
    ∃ w', w = .inner :: w' ∧ p.part? w' = some (.leaf l) := by
  cases w with
  | nil => cases h
  | cons t w' =>
    cases t with
    | inner => exact ⟨w', rfl, h⟩
    | left | right => cases h

theorem isLeftOf_cons : IsLeftOf (t :: w) (t :: w') ↔ IsLeftOf w w' := by
  refine ⟨fun h => ?_, .within t⟩
  cases h with
  | within _ h => exact h

theorem not_isLeftOf_nil : ¬IsLeftOf w [] := nofun

theorem not_isLeftOf_left : ¬IsLeftOf (.right :: w) (.left :: w') := nofun

theorem IsLeftOf.ne (h : IsLeftOf w w') : w ≠ w' := by
  induction h with
  | parted => simp
  | within t _ ih => simpa using ih

/-! ## Valuations by turns -/

/-- The valuation that has the given ones below each turn. -/
def byTurn (v : Turn → Place → Bool) : Place → Bool
  | [] => false
  | t :: w => v t w

@[simp] theorem after_byTurn (v : Turn → Place → Bool) : after t (byTurn v) = v t := rfl

/-- The valuation that has the given ones on the left and on the right. -/
def beside (v v' : Place → Bool) : Place → Bool := byTurn fun t => if t = .left then v else v'

@[simp] theorem after_left_beside (v v' : Place → Bool) : after .left (beside v v') = v := rfl

@[simp] theorem after_right_beside (v v' : Place → Bool) : after .right (beside v v') = v' := rfl

theorem after_update {b : Bool} :
    after t (Function.update v (t :: w) b) = Function.update (after t v) w b := by
  funext w'
  simp [after, Function.update_apply]

theorem after_update_of_ne {u : Turn} {b : Bool} (h : t ≠ u) :
    after t (Function.update v (u :: w) b) = after t v := by
  funext w'
  simp [after, h]

theorem value_join_of_left (h : p.value (after .left v) = go) :
    (join go p q).value v = q.value (after .right v) := by
  rw [value_join, if_pos h]

theorem value_join_of_right (h : q.value (after .right v) = go) :
    (join go p q).value v = p.value (after .left v) := by
  rw [value_join, h]
  split
  · next hp => exact hp.symm
  · next hp => exact (Bool.eq_not_of_ne hp).symm

theorem turnsOn_inner (h : p.TurnsOn (after .inner v) w) :
    (negate p).TurnsOn v (.inner :: w) := by
  intro heq
  rw [value_negate, value_negate, after_update, after_update] at heq
  exact h (Bool.not_inj heq)

/-- A joined formula turns on what its left side turns on, if the right side is fit to decide. -/
theorem turnsOn_left (hq : q.value (after .right v) = go) (h : p.TurnsOn (after .left v) w) :
    (join go p q).TurnsOn v (.left :: w) := by
  have hright (b : Bool) : q.value (after .right (Function.update v (.left :: w) b)) = go := by
    rwa [after_update_of_ne (by decide)]
  intro heq
  rw [value_join_of_right (hright true), value_join_of_right (hright false), after_update,
    after_update] at heq
  exact h heq

/-- And on what the right side turns on, if the left one leaves the decision to it. -/
theorem turnsOn_right (hp : p.value (after .left v) = go) (h : q.TurnsOn (after .right v) w) :
    (join go p q).TurnsOn v (.right :: w) := by
  have hleft (b : Bool) : p.value (after .left (Function.update v (.right :: w) b)) = go := by
    rwa [after_update_of_ne (by decide)]
  intro heq
  rw [value_join_of_left (hleft true), value_join_of_left (hleft false), after_update,
    after_update] at heq
  exact h heq

/-- A formula can have either value. -/
theorem exists_value (p : Formula L) (b : Bool) : ∃ v, p.value v = b := by
  have hjoin (go : Bool) {p q : Formula L} (hp : ∀ b, ∃ v, p.value v = b)
      (hq : ∀ b, ∃ v, q.value v = b) (b : Bool) : ∃ v, (join go p q).value v = b := by
    obtain ⟨v, hv⟩ := hp go
    obtain ⟨v', hv'⟩ := hq b
    exact ⟨beside v v', by simp [value_join, hv, hv']⟩
  induction p generalizing b with
  | leaf l => exact ⟨fun _ => b, rfl⟩
  | negate p ih =>
    obtain ⟨v, hv⟩ := ih (!b)
    exact ⟨byTurn fun _ => v, by simp [hv]⟩
  | and p q ihp ihq => exact hjoin true ihp ihq b
  | or p q ihp ihq => exact hjoin false ihp ihq b

/-! ## What is spared -/

theorem not_isSpared_leaf (l : L) : ¬(leaf l).IsSpared v w := by
  rintro ⟨u, x, l, r, -, h⟩
  cases u <;> simp [part?] at h

/-- What is spared below a turn is spared there, unless it is the turn at which the right side is
spared. -/
theorem isSpared_cons (hpart : ∀ u, p.part? (t :: u) = q.part? u) :
    p.IsSpared v (t :: w) ↔
      (t = .right ∧ ∃ l r, p = .and l r ∧ l.value (after .left v) = false ∨
        p = .or l r ∧ l.value (after .left v) = true) ∨ q.IsSpared (after t v) w := by
  constructor
  · rintro ⟨u, x, l, r, hw, h⟩
    cases u with
    | nil =>
      obtain ⟨rfl, rfl⟩ := List.cons.inj hw
      simp only [part?_nil, Option.some.injEq] at h
      exact .inl ⟨rfl, l, r, h⟩
    | cons t' u =>
      obtain ⟨rfl, rfl⟩ := List.cons.inj hw
      rw [hpart] at h
      exact .inr ⟨u, x, l, r, rfl, h⟩
  · rintro (⟨rfl, l, r, h⟩ | ⟨u, x, l, r, rfl, h⟩)
    · refine ⟨[], w, l, r, rfl, ?_⟩
      simp only [part?_nil, Option.some.injEq]
      exact h
    · exact ⟨t :: u, x, l, r, rfl, by rwa [hpart]⟩

theorem isSpared_inner :
    (negate p).IsSpared v (.inner :: w) ↔ p.IsSpared (after .inner v) w := by
  rw [isSpared_cons (q := p) fun _ => rfl]
  simp

theorem isSpared_left : (join go p q).IsSpared v (.left :: w) ↔ p.IsSpared (after .left v) w := by
  rw [isSpared_cons (q := p) fun _ => part?_join_left]
  simp

theorem isSpared_right : (join go p q).IsSpared v (.right :: w) ↔
    p.value (after .left v) ≠ go ∨ q.IsSpared (after .right v) w := by
  rw [isSpared_cons (q := q) fun _ => part?_join_right]
  cases go <;> simp [join]

end

/-! ## The run of a formula -/

/-- The course that a run takes, call by call. -/
inductive Course : Formula L → List (Call L ε) → Except ε Bool → Prop
  | leaf (l : L) (r : Except ε Bool) : Course (.leaf l) [⟨[], l, r⟩] r
  | negate {p : Formula L} {calls : List (Call L ε)} {r : Except ε Bool} (h : Course p calls r) :
      Course (.negate p) (calls.map (Call.under .inner)) (r.map (!·))
  | stop {go : Bool} {p : Formula L} {calls : List (Call L ε)} {r : Except ε Bool}
      (h : Course p calls r) (hr : r ≠ .ok go) (q : Formula L) :
      Course (join go p q) (calls.map (Call.under .left)) r
  | goOn {go : Bool} {p q : Formula L} {calls later : List (Call L ε)} {r : Except ε Bool}
      (h : Course p calls (.ok go)) (hlater : Course q later r) :
      Course (join go p q) (calls.map (Call.under .left) ++ later.map (Call.under .right)) r

section

variable {run : L → α → Failable σ ε Bool} {a : α} {s t : σ} {p q : Formula L}
  {calls later : List (Call L ε)} {r : Except ε Bool} {go : Bool} {v : Place → Bool}

/-- What was called, and what it said, in the form in which calls are made in turn. -/
def answered (calls : List (Call L ε)) : List (L × Except ε Bool) :=
  calls.map fun c => (c.test, c.said)

theorem answered_map_under (t : Turn) (calls : List (Call L ε)) :
    answered (calls.map (Call.under t)) = answered calls := List.map_map

theorem answered_append (calls later : List (Call L ε)) :
    answered (calls ++ later) = answered calls ++ answered later := List.map_append

theorem test_join (a : α) : (join go p q).test run a =
    p.test run a >>= fun b => if b = go then q.test run a else pure !go := by
  cases go with
  | true => rfl
  | false =>
    rw [join, test]
    congr 1
    funext b
    cases b <;> rfl

theorem test_negate (a : α) :
    (negate p).test run a = p.test run a >>= fun b => pure !b := rfl

/-- Negation turns conjunction into disjunction and back, and goes on to both sides. -/
theorem test_negate_join (go : Bool) (p q : Formula L) (a : α) :
    (negate (join go p q)).test run a = (join (!go) (negate p) (negate q)).test run a := by
  simp only [test_negate, test_join, bind_assoc, pure_bind]
  congr 1
  funext b
  cases b <;> cases go <;> simp

theorem test_join_assoc (go : Bool) (p q r : Formula L) (a : α) :
    (join go (join go p q) r).test run a = (join go p (join go q r)).test run a := by
  simp only [test_join, bind_assoc]
  congr 1
  funext b
  split
  · rfl
  · cases go <;> rfl

/-- The tests of a formula are called in turn, on a course that it may take. -/
theorem exists_course (run : L → α → Failable σ ε Bool) (a : α) (p : Formula L) (s : σ) :
    ∃ calls r t, InTurn run a s (answered calls) t ∧ p.Course calls r := by
  have hjoin (go : Bool) {p q : Formula L}
      (hp : ∀ s, ∃ calls r t, InTurn run a s (answered calls) t ∧ p.Course calls r)
      (hq : ∀ s, ∃ calls r t, InTurn run a s (answered calls) t ∧ q.Course calls r) (s : σ) :
      ∃ calls r t, InTurn run a s (answered calls) t ∧ (join go p q).Course calls r := by
    obtain ⟨calls, r, s', hcalls, hcourse⟩ := hp s
    by_cases hr : r = .ok go
    · obtain ⟨later, r', t, hlater, hcourse'⟩ := hq s'
      subst hr
      refine ⟨_, r', t, ?_, .goOn hcourse hcourse'⟩
      rw [answered_append, answered_map_under, answered_map_under]
      exact hcalls.append hlater
    · exact ⟨_, r, s', by rwa [answered_map_under], .stop hcourse hr q⟩
  induction p generalizing s with
  | leaf l =>
    cases h : (run l a).runFrom s with
    | mk r t => exact ⟨[⟨[], l, r⟩], r, t, .single h, .leaf l r⟩
  | negate p ih =>
    obtain ⟨calls, r, t, hcalls, hcourse⟩ := ih s
    exact ⟨_, _, t, by rwa [answered_map_under], .negate hcourse⟩
  | and p q ihp ihq => exact hjoin true ihp ihq s
  | or p q ihp ihq => exact hjoin false ihp ihq s

/-- The run of a formula comes to what its course comes to. -/
theorem Course.test_eq (h : p.Course calls r) (hcalls : InTurn run a s (answered calls) t) :
    (p.test run a).runFrom s = (r, t) := by
  induction h generalizing s t with
  | leaf l r =>
    cases hcalls with
    | cons hl hrest =>
      cases hrest
      exact hl
  | @negate p calls r _ ih =>
    rw [answered_map_under] at hcalls
    cases r with
    | error e => exact Failable.runFrom_bind_of_error (ih hcalls) _
    | ok b => exact Failable.runFrom_bind_of_ok (ih hcalls) _
  | @stop go p calls r _ hr q ih =>
    rw [answered_map_under] at hcalls
    rw [test_join]
    cases r with
    | error e => exact Failable.runFrom_bind_of_error (ih hcalls) _
    | ok b =>
      have hb : b ≠ go := fun h => hr (congrArg _ h)
      rw [Failable.runFrom_bind_of_ok (ih hcalls), if_neg hb, Bool.eq_not_of_ne hb]
      rfl
  | goOn _ _ ihp ihq =>
    rw [answered_append, answered_map_under, answered_map_under] at hcalls
    obtain ⟨s', hcalls, hlater⟩ := hcalls.of_append
    rw [test_join, Failable.runFrom_bind_of_ok (ihp hcalls), if_pos rfl, ihq hlater]

/-! ## What a course comes to -/

theorem agreesWith_under {t : Turn} : (∀ c ∈ calls.map (Call.under t), c.AgreesWith v) ↔
    ∀ c ∈ calls, c.AgreesWith (after t v) := List.forall_mem_map

theorem not_fails_under {t : Turn} :
    (∀ c ∈ calls.map (Call.under t), ¬c.Fails) ↔ ∀ c ∈ calls, ¬c.Fails := List.forall_mem_map

theorem forall_place_ne {t : Turn} {w : Place} :
    (∀ c ∈ calls.map (Call.under t), c.place ≠ t :: w) ↔ ∀ c ∈ calls, c.place ≠ w := by
  simp [Call.under]

theorem exists_fails {t : Turn} {w : Place} :
    (∃ c ∈ calls.map (Call.under t), c.Fails ∧ IsLeftOf c.place (t :: w)) ↔
      ∃ c ∈ calls, c.Fails ∧ IsLeftOf c.place w := by
  simp [Call.under, Call.Fails, isLeftOf_cons]

namespace Evaluates

/-- Where there is a truth value, no test has failed. -/
theorem not_fails {b : Bool} (h : p.Evaluates calls (.ok b)) : ∀ c ∈ calls, ¬c.Fails := by
  rintro c hc ⟨e, he⟩
  cases h.fails c hc e he

theorem value_eq {b : Bool} (h : p.Evaluates calls (.ok b)) (hv : ∀ c ∈ calls, c.AgreesWith v) :
    p.value v = b := (Except.ok.inj (h.answers h.not_fails v hv)).symm

/-- Some valuation has all the values that were said. -/
theorem exists_agrees (h : p.Evaluates calls r) : ∃ v, ∀ c ∈ calls, c.AgreesWith v := by
  have hordered := h.leftToRight
  clear h
  induction calls with
  | nil => exact ⟨fun _ => false, nofun⟩
  | cons c calls ih =>
    obtain ⟨hc, hordered⟩ := List.pairwise_cons.mp hordered
    obtain ⟨v, hv⟩ := ih hordered
    refine ⟨Function.update v c.place (c.said.toOption.getD false), ?_⟩
    rw [List.forall_mem_cons]
    refine ⟨fun b hb => by simp [hb, Except.toOption], fun d hd b hb => ?_⟩
    rw [Function.update_of_ne (hc d hd).ne.symm, hv d hd b hb]

theorem leaf (l : L) (r : Except ε Bool) : (leaf l).Evaluates [⟨[], l, r⟩] r where
  tests := by simp
  leftToRight := List.pairwise_singleton _ _
  skips v _ w l' hw := by
    cases w with
    | nil => simp [not_isSpared_leaf, not_isLeftOf_nil]
    | cons t w => simp [part?] at hw
  needs c hc := by
    obtain rfl := List.mem_singleton.mp hc
    refine ⟨fun _ => false, ?_, by simp [TurnsOn]⟩
    simp [not_isLeftOf_nil]
  fails := by simp
  answers hok v hv := by
    cases r with
    | error e => exact absurd ⟨e, rfl⟩ (hok _ (List.mem_singleton_self _))
    | ok b => exact congrArg _ (hv _ (List.mem_singleton_self _) b rfl).symm

theorem negate (h : p.Evaluates calls r) :
    (negate p).Evaluates (calls.map (Call.under .inner)) (r.map (!·)) where
  tests := List.forall_mem_map.mpr h.tests
  leftToRight := List.pairwise_map.mpr (h.leftToRight.imp (.within _))
  skips v hv w l hw := by
    obtain ⟨w, rfl, hw⟩ := exists_of_part?_negate hw
    rw [isSpared_inner, forall_place_ne, exists_fails]
    exact h.skips _ (agreesWith_under.mp hv) w l hw
  needs := by
    refine List.forall_mem_map.mpr fun c hc => ?_
    obtain ⟨v, hv, hturns⟩ := h.needs c hc
    refine ⟨byTurn fun _ => v, List.forall_mem_map.mpr fun d hd hleft => ?_, turnsOn_inner hturns⟩
    exact hv d hd (isLeftOf_cons.mp hleft)
  fails := List.forall_mem_map.mpr fun c hc e he => by rw [h.fails c hc e he]; rfl
  answers hok v hv := by
    rw [h.answers (not_fails_under.mp hok) _ (agreesWith_under.mp hv), value_negate]
    rfl

theorem stop (h : p.Evaluates calls r) (hr : r ≠ .ok go) (q : Formula L) :
    (join go p q).Evaluates (calls.map (Call.under .left)) r where
  tests := List.forall_mem_map.mpr fun c hc => part?_join_left.trans (h.tests c hc)
  leftToRight := List.pairwise_map.mpr (h.leftToRight.imp (.within _))
  skips v hv w l hw := by
    have hagrees := agreesWith_under.mp hv
    rcases exists_of_part?_join hw with ⟨w, rfl, hpart⟩ | ⟨w, rfl, -⟩
    · rw [isSpared_left, forall_place_ne, exists_fails]
      exact h.skips _ hagrees w l hpart
    · rw [isSpared_right]
      refine iff_of_true (by simp [Call.under]) ?_
      by_cases hok : ∀ c ∈ calls, ¬c.Fails
      · refine .inl (.inl fun heq => hr ?_)
        rw [h.answers hok _ hagrees, heq]
      · simp only [not_forall, not_not] at hok
        obtain ⟨c, hc, hfails⟩ := hok
        exact .inr ⟨_, List.mem_map_of_mem hc, hfails, .parted _ _⟩
  needs := by
    refine List.forall_mem_map.mpr fun c hc => ?_
    obtain ⟨v, hv, hturns⟩ := h.needs c hc
    obtain ⟨v', hv'⟩ := q.exists_value go
    refine ⟨beside v v', ?_, turnsOn_left hv' hturns⟩
    exact List.forall_mem_map.mpr fun d hd hleft => hv d hd (isLeftOf_cons.mp hleft)
  fails := List.forall_mem_map.mpr h.fails
  answers hok v hv := by
    have hvalue := h.answers (not_fails_under.mp hok) _ (agreesWith_under.mp hv)
    have hne : p.value (after .left v) ≠ go := fun heq => hr (by rw [hvalue, heq])
    rw [hvalue, value_join, if_neg hne, Bool.eq_not_of_ne hne]

theorem goOn (h : p.Evaluates calls (.ok go)) (hlater : q.Evaluates later r) :
    (join go p q).Evaluates (calls.map (Call.under .left) ++ later.map (Call.under .right)) r where
  tests := by
    rw [List.forall_mem_append]
    exact ⟨List.forall_mem_map.mpr fun c hc => part?_join_left.trans (h.tests c hc),
      List.forall_mem_map.mpr fun c hc => part?_join_right.trans (hlater.tests c hc)⟩
  leftToRight := by
    refine List.pairwise_append.mpr ⟨List.pairwise_map.mpr (h.leftToRight.imp (.within _)),
      List.pairwise_map.mpr (hlater.leftToRight.imp (.within _)), ?_⟩
    exact List.forall_mem_map.mpr fun c _ => List.forall_mem_map.mpr fun d _ => .parted _ _
  skips v hv w l hw := by
    rw [List.forall_mem_append, agreesWith_under, agreesWith_under] at hv
    have happ (w : Place) : (∃ c ∈ calls.map (Call.under .left) ++ later.map (Call.under .right),
        c.Fails ∧ IsLeftOf c.place w) ↔
        (∃ c ∈ calls.map (Call.under .left), c.Fails ∧ IsLeftOf c.place w) ∨
          ∃ c ∈ later.map (Call.under .right), c.Fails ∧ IsLeftOf c.place w := by
      simp only [List.mem_append, or_and_right, exists_or]
    rw [List.forall_mem_append, happ]
    rcases exists_of_part?_join hw with ⟨w, rfl, hpart⟩ | ⟨w, rfl, hpart⟩
    · have hne : ∀ c ∈ later.map (Call.under .right), c.place ≠ .left :: w := by simp [Call.under]
      have hnone : ¬∃ c ∈ later.map (Call.under .right),
          c.Fails ∧ IsLeftOf c.place (.left :: w) := by
        simp [Call.under, not_isLeftOf_left]
      rw [and_iff_left hne, or_iff_left hnone, isSpared_left, forall_place_ne, exists_fails]
      exact h.skips _ hv.1 w l hpart
    · have hne : ∀ c ∈ calls.map (Call.under .left), c.place ≠ .right :: w := by simp [Call.under]
      have hnone : ¬∃ c ∈ calls.map (Call.under .left),
          c.Fails ∧ IsLeftOf c.place (.right :: w) := by
        rintro ⟨c, hc, hfails, -⟩
        exact not_fails_under.mpr h.not_fails c hc hfails
      have hgo : ¬p.value (after .left v) ≠ go := not_not.mpr (h.value_eq hv.1)
      rw [and_iff_right hne, or_iff_right hnone, isSpared_right, or_iff_right hgo, forall_place_ne,
        exists_fails]
      exact hlater.skips _ hv.2 w l hpart
  needs := by
    refine List.forall_mem_append.mpr ⟨List.forall_mem_map.mpr fun c hc => ?_,
      List.forall_mem_map.mpr fun c hc => ?_⟩
    · obtain ⟨v, hv, hturns⟩ := h.needs c hc
      obtain ⟨v', hv'⟩ := q.exists_value go
      refine ⟨beside v v', ?_, turnsOn_left hv' hturns⟩
      refine List.forall_mem_append.mpr ⟨List.forall_mem_map.mpr fun d hd hleft => ?_,
        List.forall_mem_map.mpr fun d hd hleft => absurd hleft not_isLeftOf_left⟩
      exact hv d hd (isLeftOf_cons.mp hleft)
    · obtain ⟨v, hv⟩ := h.exists_agrees
      obtain ⟨v', hv', hturns⟩ := hlater.needs c hc
      refine ⟨beside v v', ?_, turnsOn_right (h.value_eq hv) hturns⟩
      refine List.forall_mem_append.mpr ⟨List.forall_mem_map.mpr fun d hd _ => hv d hd,
        List.forall_mem_map.mpr fun d hd hleft => ?_⟩
      exact hv' d hd (isLeftOf_cons.mp hleft)
  fails := by
    rw [List.forall_mem_append]
    refine ⟨List.forall_mem_map.mpr fun c hc e he => ?_, List.forall_mem_map.mpr hlater.fails⟩
    exact absurd ⟨e, he⟩ (h.not_fails c hc)
  answers hok v hv := by
    rw [List.forall_mem_append, agreesWith_under, agreesWith_under] at hv
    rw [List.forall_mem_append, not_fails_under, not_fails_under] at hok
    rw [hlater.answers hok.2 _ hv.2, value_join_of_left (h.value_eq hv.1)]

end Evaluates

theorem Course.evaluates (h : p.Course calls r) : p.Evaluates calls r := by
  induction h with
  | leaf l r => exact .leaf l r
  | negate _ ih => exact ih.negate
  | stop _ hr q ih => exact ih.stop hr q
  | goOn _ _ ihp ihq => exact ihp.goOn ihq

end

/-! ## Short circuits -/

/-- Whatever its tests do, a formula is evaluated from left to right: it calls exactly the tests
that what was said before leaves open, up to the first failure. So formulas that a law of logic
turns into each other, as far as it keeps the order of the tests, are the same computation. -/
theorem shortCircuits (run : L → α → Failable σ ε Bool) (a : α) :
    (∀ (p : Formula L) (s : σ), ∃ calls r t,
      InTurn run a s (answered calls) t ∧ p.Evaluates calls r ∧
      (p.test run a).runFrom s = (r, t) ∧
      ∀ lines, (p.test (fun l a => recorded (l, a) (run l a)) a).runFrom (s, lines) =
        (r, t, lines ++ calls.map fun c => (c.test, a))) ∧
    (∀ p : Formula L, (negate (negate p)).test run a = p.test run a) ∧
    (∀ p q : Formula L,
      (negate (and p q)).test run a = (or (negate p) (negate q)).test run a ∧
      (negate (or p q)).test run a = (and (negate p) (negate q)).test run a) ∧
    ∀ p q r : Formula L,
      (and (and p q) r).test run a = (and p (and q r)).test run a ∧
      (or (or p q) r).test run a = (or p (or q r)).test run a := by
  refine ⟨fun p s => ?_, fun p => ?_,
    fun p q => ⟨test_negate_join true p q a, test_negate_join false p q a⟩,
    fun p q r => ⟨test_join_assoc true p q r a, test_join_assoc false p q r a⟩⟩
  · obtain ⟨calls, r, t, hcalls, hcourse⟩ := exists_course run a p s
    refine ⟨calls, r, t, hcalls, hcourse.evaluates, hcourse.test_eq hcalls, fun lines => ?_⟩
    have hlines : (answered calls).map (fun c => (c.1, a)) = calls.map fun c => (c.test, a) :=
      List.map_map
    rw [← hlines]
    exact hcourse.test_eq (hcalls.recorded Prod.mk lines)
  · simp only [test_negate, bind_assoc, pure_bind, Bool.not_not, bind_pure]

end BestFit.Formula
