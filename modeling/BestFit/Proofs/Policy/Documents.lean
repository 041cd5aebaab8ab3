import Mathlib.Data.Set.List
import Mathlib.Tactic.Tauto
import BestFit.Policy.Document
import BestFit.Proofs.Json.Grammar

/-!
# Which values a policy is read from

`IsChoices` says which JSON values stand for a policy, and `IsGivenBy` for which one. The tokens
that are accepted are those of such a value, and the policy is the one it gives
(`ofTokens_eq_ok`).
-/
namespace BestFit.Policy

open Json (Value Token)

/-! ## Values that stand for a policy -/

/-- The names of the choices. -/
def IsName (name : List Char) : Prop := name = "autoboxing".toList ∨ name = "escalation".toList

/-- An object names choices, each once. An array lists them, with nothing after the last one. -/
inductive IsChoices : Value → Prop
  | object {ms : List (List Char × Value)} (hdistinct : (ms.map Prod.fst).Nodup)
      (hnames : ∀ m ∈ ms, IsName m.1) (hbool : ∀ m ∈ ms, ∃ b, m.2 = .bool b) :
      IsChoices (.object ms)
  | array {vs : List Value} (hlength : vs.length ≤ 2) (hbool : ∀ v ∈ vs, ∃ b, v = .bool b) :
      IsChoices (.array vs)

/-- That a value gives `w` for the choice with this name, which has this place in an array. -/
def Gives (name : String) (place : Nat) (w : Value) : Value → Prop
  | .object ms => (name.toList, w) ∈ ms
  | .array vs => vs[place]? = some w
  | _ => False

/-- That a choice is the one given, or true where none is. -/
def Chooses (name : String) (place : Nat) (v : Value) (b : Bool) : Prop :=
  Gives name place (.bool b) v ∨ b = true ∧ ∀ w, ¬ Gives name place w v

/-- The policy whose choices are those that a value gives. -/
def IsGivenBy (p : Policy) (v : Value) : Prop :=
  Chooses "autoboxing" 0 v p.boxing ∧ Chooses "escalation" 1 v p.unlocking

variable {name : String} {place : Nat} {v : Value} {b : Bool}

/-- A choice, from what is given for it at most once and as a truth value. -/
theorem chooses_iff (o : Option Bool)
    (h : ∀ w, Gives name place w v ↔ ∃ x, w = .bool x ∧ o = some x) :
    Chooses name place v b ↔ b = o.getD true := by
  unfold Chooses
  cases o with
  | none => simp [h]
  | some x => simp [h, eq_comm]

theorem gives_array {bs : List Bool} {w : Value} :
    Gives name place w (.array (bs.map .bool)) ↔ ∃ x, w = .bool x ∧ bs[place]? = some x := by
  simp only [Gives, List.getElem?_map, Option.map_eq_some_iff]
  exact exists_congr fun x => by rw [and_comm, eq_comm]

/-- Members with truth values, as members of any kind. -/
def asMembers (ms : List (List Char × Bool)) : List (List Char × Value) :=
  ms.map (Prod.map id .bool)

theorem gives_object {ms : List (List Char × Bool)} {w : Value} :
    Gives name place w (.object (asMembers ms)) ↔ ∃ x, w = .bool x ∧ (name.toList, x) ∈ ms := by
  simp only [Gives, asMembers, List.mem_map]
  constructor
  · rintro ⟨⟨n, x⟩, hm, heq⟩
    cases heq
    exact ⟨x, rfl, hm⟩
  · rintro ⟨x, rfl, hm⟩
    exact ⟨_, hm, rfl⟩

theorem isChoices_array {vs : List Value} :
    IsChoices (.array vs) ↔ ∃ bs : List Bool, vs = bs.map .bool ∧ bs.length ≤ 2 := by
  constructor
  · intro h
    cases h with
    | array hlength hbool =>
      obtain ⟨bs, rfl⟩ : vs ∈ Set.range (List.map Value.bool) := by
        rw [Set.range_list_map]
        exact fun v hv => (hbool v hv).imp fun _ => Eq.symm
      exact ⟨bs, rfl, by simpa using hlength⟩
  · rintro ⟨bs, rfl, hlength⟩
    refine .array (by simpa using hlength) fun v hv => ?_
    obtain ⟨b, -, rfl⟩ := List.mem_map.mp hv
    exact ⟨b, rfl⟩

theorem isChoices_object {ms : List (List Char × Value)} :
    IsChoices (.object ms) ↔ ∃ bs, ms = asMembers bs ∧ (bs.map Prod.fst).Nodup ∧
      ∀ m ∈ bs, IsName m.1 := by
  have hfst (bs : List (List Char × Bool)) : (asMembers bs).map Prod.fst = bs.map Prod.fst := by
    simp [asMembers]
  constructor
  · intro h
    cases h with
    | object hdistinct hnames hbool =>
      obtain ⟨bs, rfl⟩ : ms ∈ Set.range asMembers := by
        unfold asMembers
        rw [Set.range_list_map]
        rintro ⟨n, v⟩ hm
        obtain ⟨b, rfl⟩ := hbool _ hm
        exact ⟨(n, b), rfl⟩
      rw [hfst] at hdistinct
      exact ⟨bs, rfl, hdistinct, fun m hm => hnames _ (List.mem_map_of_mem hm)⟩
  · rintro ⟨bs, rfl, hdistinct, hnames⟩
    refine .object (by rwa [hfst]) (fun m hm => ?_) fun m hm => ?_
    · obtain ⟨m, hb, rfl⟩ := List.mem_map.mp hm
      exact hnames m hb
    · obtain ⟨m, -, rfl⟩ := List.mem_map.mp hm
      exact ⟨m.2, rfl⟩

/-! ## Drafts -/

/-- A computation in two steps succeeds when the steps succeed one after the other. -/
theorem bind_eq_ok {ε α β : Type} {x : Except ε α} {f : α → Except ε β} {r : β} :
    (x >>= f) = .ok r ↔ ∃ a, x = .ok a ∧ f a = .ok r := by
  cases x <;> simp [bind, Except.bind]

namespace Draft

/-- What was entered under a name. -/
def given? (d : Draft) (name : List Char) : Option Bool :=
  if name = "autoboxing".toList then d.boxing
  else if name = "escalation".toList then d.unlocking
  else none

variable {d d' : Draft} {name : List Char} {b : Bool} {m : List Char × Bool}
  {ms : List (List Char × Bool)}

@[simp]
theorem given?_autoboxing (d : Draft) : d.given? "autoboxing".toList = d.boxing := rfl

@[simp]
theorem given?_escalation (d : Draft) : d.given? "escalation".toList = d.unlocking := rfl

@[simp]
theorem given?_empty (name : List Char) : given? {} name = none := by
  unfold given?
  split_ifs <;> rfl

theorem given?_boxing (o : Option Bool) (n : List Char) :
    given? { d with boxing := o } n = if n = "autoboxing".toList then o else d.given? n := by
  unfold given?
  split_ifs <;> rfl

theorem given?_unlocking (o : Option Bool) (n : List Char) :
    given? { d with unlocking := o } n = if n = "escalation".toList then o else d.given? n := by
  unfold given?
  split_ifs with h₁ h₂
  · exact absurd (h₁.symm.trans h₂) (by decide)
  all_goals rfl

/-- A name is entered if it is known and free. -/
theorem exists_enter_eq_ok (hname : IsName name) (hfree : d.given? name = none) (b : Bool) :
    ∃ d', d.enter name b = .ok d' := by
  obtain rfl | rfl := hname
  · rw [given?_autoboxing] at hfree
    exact ⟨_, by rw [enter, if_pos rfl, hfree]; rfl⟩
  · rw [given?_escalation] at hfree
    exact ⟨_, by rw [enter, if_neg (by decide), if_pos rfl, hfree]; rfl⟩

/-- A name that is entered is known and was free, and what is given for others stays. -/
theorem of_enter_eq_ok (h : d.enter name b = .ok d') :
    IsName name ∧ d.given? name = none ∧
      ∀ n x, d'.given? n = some x ↔ (n, x) = (name, b) ∨ d.given? n = some x := by
  have given (hfree : d.given? name = none) (n : List Char) (x : Bool) :
      (if n = name then some b else d.given? n) = some x ↔
        (n, x) = (name, b) ∨ d.given? n = some x := by
    split_ifs with hn
    · subst hn
      simp [hfree, eq_comm]
    · simp [hn]
  unfold enter at h
  split_ifs at h with h₁ h₂ h₃ h₄
  · cases h
    subst h₁
    have hfree : d.boxing = none := Option.not_isSome_iff_eq_none.mp h₂
    exact ⟨.inl rfl, hfree, fun n x => by rw [given?_boxing, given hfree]⟩
  · cases h
    subst h₃
    have hfree : d.unlocking = none := Option.not_isSome_iff_eq_none.mp h₄
    exact ⟨.inr rfl, hfree, fun n x => by rw [given?_unlocking, given hfree]⟩

/-- Enters members from left to right. -/
def enterAll (d : Draft) (ms : List (List Char × Bool)) : Except DocumentError Draft :=
  ms.foldlM (fun d m => d.enter m.1 m.2) d

theorem enterAll_cons_eq_ok :
    d.enterAll (m :: ms) = .ok d' ↔ ∃ d₁, d.enter m.1 m.2 = .ok d₁ ∧ d₁.enterAll ms = .ok d' := by
  rw [enterAll, List.foldlM_cons, bind_eq_ok]
  rfl

/-- Members are entered if their names are known, free and distinct. -/
theorem exists_enterAll_eq_ok (hnames : ∀ m ∈ ms, IsName m.1 ∧ d.given? m.1 = none)
    (hdistinct : (ms.map Prod.fst).Nodup) : ∃ d', d.enterAll ms = .ok d' := by
  induction ms generalizing d with
  | nil => exact ⟨d, rfl⟩
  | cons m ms ih =>
    rw [List.forall_mem_cons] at hnames
    rw [List.map_cons, List.nodup_cons] at hdistinct
    obtain ⟨d₁, h⟩ := exists_enter_eq_ok hnames.1.1 hnames.1.2 m.2
    obtain ⟨-, -, hgiven⟩ := of_enter_eq_ok h
    have hfree : ∀ m' ∈ ms, IsName m'.1 ∧ d₁.given? m'.1 = none := fun m' hm' => by
      refine ⟨(hnames.2 m' hm').1, Option.eq_none_iff_forall_ne_some.mpr fun x hx => ?_⟩
      obtain heq | hx := (hgiven _ _).mp hx
      · exact hdistinct.1 (List.mem_map.mpr ⟨m', hm', (Prod.mk.inj heq).1⟩)
      · simp [(hnames.2 m' hm').2] at hx
    obtain ⟨d', hms⟩ := ih hfree hdistinct.2
    exact ⟨d', enterAll_cons_eq_ok.mpr ⟨d₁, h, hms⟩⟩

/-- Members that are entered have known, free and distinct names, and what is given afterwards is
what they give and what was given before. -/
theorem of_enterAll_eq_ok (h : d.enterAll ms = .ok d') :
    (∀ m ∈ ms, IsName m.1 ∧ d.given? m.1 = none) ∧ (ms.map Prod.fst).Nodup ∧
      ∀ n x, d'.given? n = some x ↔ (n, x) ∈ ms ∨ d.given? n = some x := by
  induction ms generalizing d with
  | nil =>
    cases h
    simp
  | cons m ms ih =>
    obtain ⟨d₁, h, hms⟩ := enterAll_cons_eq_ok.mp h
    obtain ⟨hname, hfree, hgiven⟩ := of_enter_eq_ok h
    obtain ⟨hnames, hdistinct, hall⟩ := ih hms
    rw [List.forall_mem_cons, List.map_cons, List.nodup_cons]
    refine ⟨⟨⟨hname, hfree⟩, fun m' hm' => ⟨(hnames m' hm').1, ?_⟩⟩, ⟨?_, hdistinct⟩, ?_⟩
    · -- What is not given after the first member was not given before it.
      refine Option.eq_none_iff_forall_ne_some.mpr fun x hx => ?_
      simpa [(hnames m' hm').2] using (hgiven _ _).mpr (.inr hx)
    · -- The first name is taken when the other members are entered.
      intro hmem
      obtain ⟨m', hm', heq⟩ := List.mem_map.mp hmem
      have htaken : d₁.given? m.1 = some m.2 := (hgiven _ _).mpr (.inl rfl)
      rw [← heq, (hnames m' hm').2] at htaken
      cases htaken
    · intro n x
      rw [hall, hgiven, List.mem_cons]
      tauto

end Draft

/-! ## Reading -/

variable {d d' : Draft} {p : Policy} {name : List Char} {b : Bool} {ms : List (List Char × Bool)}
  {ts rest : List Token}

theorem readMembers_of_enterAll (h : d.enterAll ((name, b) :: ms) = .ok d') :
    readMembers d (.text name :: .colon :: .bool b :: Value.moreMembers (asMembers ms) ++ rest) =
      .ok (d', rest) := by
  induction ms generalizing d name b with
  | nil =>
    obtain ⟨d₁, h, hnil⟩ := Draft.enterAll_cons_eq_ok.mp h
    cases hnil
    simp [asMembers, Value.moreMembers, readMembers, h, bind, Except.bind, pure, Except.pure]
  | cons m ms ih =>
    obtain ⟨d₁, h, hms⟩ := Draft.enterAll_cons_eq_ok.mp h
    have := ih hms
    simp only [asMembers, List.map_cons, Prod.map, Value.moreMembers, Value.tokens,
      List.cons_append, List.nil_append, readMembers, h, bind, Except.bind]
    exact this

theorem check_throw_ne_ok {e : DocumentError} {r : Draft × List Token} :
    (do d.check name; throw e) ≠ Except.ok r := by
  cases d.check name <;> nofun

theorem exists_of_readMembers_eq_ok (h : readMembers d ts = .ok (d', rest)) :
    ∃ name b ms, d.enterAll ((name, b) :: ms) = .ok d' ∧
      ts = .text name :: .colon :: .bool b :: Value.moreMembers (asMembers ms) ++ rest := by
  fun_induction readMembers d ts with
  | case1 d name b ts ih =>
    obtain ⟨d₁, hd, h⟩ := bind_eq_ok.mp h
    obtain ⟨n, x, ms, hms, rfl⟩ := ih d₁ h
    exact ⟨name, b, (n, x) :: ms, Draft.enterAll_cons_eq_ok.mpr ⟨d₁, hd, hms⟩, rfl⟩
  | case2 d name b ts =>
    obtain ⟨d₁, hd, h⟩ := bind_eq_ok.mp h
    cases h
    exact ⟨name, b, [], Draft.enterAll_cons_eq_ok.mpr ⟨_, hd, rfl⟩, rfl⟩
  | case3 | case4 | case5 => exact absurd h check_throw_ne_ok
  | case6 => cases h

/-- The members of an object that stands for a policy can be entered. -/
theorem IsChoices.exists_enterAll {ms : List (List Char × Value)} (h : IsChoices (.object ms)) :
    ∃ bs d, Draft.enterAll {} bs = .ok d ∧ ms = asMembers bs := by
  obtain ⟨bs, rfl, hdistinct, hnames⟩ := isChoices_object.mp h
  obtain ⟨d, hd⟩ := Draft.exists_enterAll_eq_ok (d := {})
    (fun m hm => ⟨hnames m hm, Draft.given?_empty _⟩) hdistinct
  exact ⟨bs, d, hd, rfl⟩

/-- Objects stand for what their members amount to once they are entered. -/
theorem isGivenBy_object {ms : List (List Char × Value)} :
    IsChoices (.object ms) ∧ p.IsGivenBy (.object ms) ↔
      ∃ bs d, Draft.enterAll {} bs = .ok d ∧ ms = asMembers bs ∧ p = d.toPolicy := by
  have key {bs : List (List Char × Bool)} {d : Draft} (h : Draft.enterAll {} bs = .ok d) :
      p.IsGivenBy (.object (asMembers bs)) ↔ p = d.toPolicy := by
    obtain ⟨-, -, hgiven⟩ := Draft.of_enterAll_eq_ok h
    have hchooses (name : String) (place : Nat) (b : Bool) :
        Chooses name place (.object (asMembers bs)) b ↔ b = (d.given? name.toList).getD true :=
      chooses_iff _ fun w => by simp [gives_object, hgiven]
    rw [IsGivenBy, hchooses, hchooses, Draft.given?_autoboxing, Draft.given?_escalation]
    cases p
    simp [Draft.toPolicy]
  constructor
  · rintro ⟨hv, hp⟩
    obtain ⟨bs, d, h, rfl⟩ := hv.exists_enterAll
    exact ⟨bs, d, h, rfl, (key h).mp hp⟩
  · rintro ⟨bs, d, h, rfl, rfl⟩
    obtain ⟨hnames, hdistinct, -⟩ := Draft.of_enterAll_eq_ok h
    exact ⟨isChoices_object.mpr ⟨bs, rfl, hdistinct, fun m hm => (hnames m hm).1⟩, (key h).mpr rfl⟩

theorem isGivenBy_array {vs : List Value} :
    IsChoices (.array vs) ∧ p.IsGivenBy (.array vs) ↔
      ∃ bs : List Bool, bs.length ≤ 2 ∧ vs = bs.map .bool ∧
        p = { boxing := bs[0]?.getD true, unlocking := bs[1]?.getD true } := by
  have key (bs : List Bool) : p.IsGivenBy (.array (bs.map .bool)) ↔
      p = { boxing := bs[0]?.getD true, unlocking := bs[1]?.getD true } := by
    rw [IsGivenBy, chooses_iff _ fun _ => gives_array, chooses_iff _ fun _ => gives_array]
    cases p
    simp
  rw [isChoices_array]
  constructor
  · rintro ⟨⟨bs, rfl, hlength⟩, hp⟩
    exact ⟨bs, hlength, rfl, (key bs).mp hp⟩
  · rintro ⟨bs, hlength, rfl, hp⟩
    exact ⟨⟨bs, rfl, hlength⟩, (key bs).mpr hp⟩

/-- A value that stands for a policy stands for some policy: what it does not give is true. -/
theorem IsChoices.exists_isGivenBy {v : Value} (h : IsChoices v) : ∃ p : Policy, p.IsGivenBy v := by
  cases id h with
  | object =>
    obtain ⟨bs, d, hd, rfl⟩ := h.exists_enterAll
    exact ⟨_, (isGivenBy_object.mpr ⟨bs, d, hd, rfl, rfl⟩).2⟩
  | array =>
    obtain ⟨bs, rfl, hlength⟩ := isChoices_array.mp h
    exact ⟨_, (isGivenBy_array.mpr ⟨bs, hlength, rfl, rfl⟩).2⟩

theorem readObject_text :
    readObject (.text name :: ts) =
      (readMembers {} (.text name :: ts)).map fun r => (r.1.toPolicy, r.2) := by
  rw [readObject]
  · cases readMembers {} (.text name :: ts) <;> rfl
  · nofun

/-- What is read as an object is one that stands for the policy. -/
theorem readObject_eq_ok :
    readObject ts = .ok (p, rest) ↔
      ∃ ms, (IsChoices (.object ms) ∧ p.IsGivenBy (.object ms)) ∧
        .openBrace :: ts = (Value.object ms).tokens ++ rest := by
  simp only [isGivenBy_object]
  constructor
  · intro h
    unfold readObject at h
    split at h
    · cases h
      exact ⟨[], ⟨[], {}, rfl, rfl, rfl⟩, rfl⟩
    · obtain ⟨r, hr, h⟩ := bind_eq_ok.mp h
      cases h
      obtain ⟨name, b, bs, hd, rfl⟩ := exists_of_readMembers_eq_ok hr
      exact ⟨_, ⟨(name, b) :: bs, r.1, hd, rfl, rfl⟩, rfl⟩
  · rintro ⟨_, ⟨bs, d, hd, rfl, rfl⟩, hts⟩
    cases bs with
    | nil =>
      cases hd
      cases hts
      rfl
    | cons m bs =>
      obtain rfl : ts = .text m.1 :: .colon :: .bool m.2 :: Value.moreMembers (asMembers bs)
        ++ rest := (List.cons.inj hts).2
      rw [List.cons_append, readObject_text, ← List.cons_append, readMembers_of_enterAll hd]
      rfl

/-- What is read as an array is one that stands for the policy. -/
theorem readArray_eq_ok :
    readArray ts = .ok (p, rest) ↔
      ∃ vs, (IsChoices (.array vs) ∧ p.IsGivenBy (.array vs)) ∧
        .openBracket :: ts = (Value.array vs).tokens ++ rest := by
  simp only [isGivenBy_array]
  constructor
  · intro h
    unfold readArray at h
    split at h
    · cases h
      exact ⟨_, ⟨[], by simp, rfl, rfl⟩, rfl⟩
    · next a _ =>
      cases h
      exact ⟨_, ⟨[a], by simp, rfl, rfl⟩, rfl⟩
    · next a b _ =>
      cases h
      exact ⟨_, ⟨[a, b], by simp, rfl, rfl⟩, rfl⟩
    all_goals cases h
  · rintro ⟨_, ⟨bs, hlength, rfl, rfl⟩, hts⟩
    match bs, hlength with
    | [], _ => cases hts; rfl
    | [a], _ => cases hts; rfl
    | [a, b], _ => cases hts; rfl

/-- Accepts what was read if nothing is left after it. -/
def finish (x : Except DocumentError (Policy × List Token)) : Except DocumentError Policy := do
  let r ← x
  if r.2.isEmpty then return r.1 else throw .malformed

theorem finish_eq_ok {x : Except DocumentError (Policy × List Token)} :
    finish x = .ok p ↔ x = .ok (p, []) := by
  rw [finish, bind_eq_ok]
  constructor
  · rintro ⟨⟨q, rest⟩, hx, h⟩
    cases rest <;> cases h
    exact hx
  · exact fun hx => ⟨_, hx, rfl⟩

/-- The tokens from which a policy is read are those of a value that stands for it. -/
theorem ofTokens_eq_ok :
    ofTokens ts = .ok p ↔ ∃ v, (IsChoices v ∧ p.IsGivenBy v) ∧ ts = v.tokens := by
  have hobject (ts : List Token) : ofTokens (.openBrace :: ts) = finish (readObject ts) := rfl
  have harray (ts : List Token) : ofTokens (.openBracket :: ts) = finish (readArray ts) := rfl
  constructor
  · intro h
    match ts, h with
    | .openBrace :: ts, h =>
      rw [hobject, finish_eq_ok, readObject_eq_ok] at h
      obtain ⟨ms, hms, hts⟩ := h
      exact ⟨.object ms, hms, by rw [hts, List.append_nil]⟩
    | .openBracket :: ts, h =>
      rw [harray, finish_eq_ok, readArray_eq_ok] at h
      obtain ⟨vs, hvs, hts⟩ := h
      exact ⟨.array vs, hvs, by rw [hts, List.append_nil]⟩
  · rintro ⟨v, hv, rfl⟩
    obtain ⟨ts, hts⟩ := v.exists_tokens_eq_cons
    cases hv.1 with
    | object =>
      rw [hts, Value.firstToken, hobject, finish_eq_ok, readObject_eq_ok]
      exact ⟨_, hv, by rw [List.append_nil, hts, Value.firstToken]⟩
    | array =>
      rw [hts, Value.firstToken, harray, finish_eq_ok, readArray_eq_ok]
      exact ⟨_, hv, by rw [List.append_nil, hts, Value.firstToken]⟩

end BestFit.Policy
