import BestFit.Proofs.Json.Lexing
import BestFit.Proofs.Policy.Documents

/-!
# Which texts a policy is read from

A policy is read from exactly the texts that are one for a value standing for it, and from such a
text nothing else is read, however it is written. Main statement: `Policy.parse_accepts`.
-/
namespace BestFit.Policy

open Json (Value Token)

variable {v w : Value} {vs : List Value} {ms : List (List Char × Value)} {b : Bool}
  {cs rest : List Char} {p : Policy} {text : String}

/-! ## Texts and values -/

theorem delimited_bool : ∀ t ∈ (Value.bool b).tokens, t.IsDelimited := by
  simp [Value.tokens, Token.IsDelimited]

theorem delimited_moreElements (h : ∀ v ∈ vs, ∃ b, v = .bool b) :
    ∀ t ∈ Value.moreElements vs, t.IsDelimited := by
  induction vs with
  | nil => decide
  | cons v vs ih =>
    rw [List.forall_mem_cons] at h
    obtain ⟨⟨b, rfl⟩, h⟩ := h
    rw [Value.moreElements, List.cons_append, List.forall_mem_cons, List.forall_mem_append]
    exact ⟨by decide, delimited_bool, ih h⟩

theorem delimited_moreMembers (h : ∀ m ∈ ms, ∃ b, m.2 = .bool b) :
    ∀ t ∈ Value.moreMembers ms, t.IsDelimited := by
  induction ms with
  | nil => decide
  | cons m ms ih =>
    obtain ⟨name, v⟩ := m
    rw [List.forall_mem_cons] at h
    obtain ⟨⟨b, rfl⟩, h⟩ := h
    rw [Value.moreMembers]
    simp only [List.cons_append, List.forall_mem_cons, List.forall_mem_append]
    exact ⟨by decide, by simp [Token.IsDelimited], by decide, delimited_bool, ih h⟩

/-- No number stands in the tokens of a value that stands for a policy. They are those that follow
an element or a member, but for the first ones. -/
theorem IsChoices.delimited (h : IsChoices v) : ∀ t ∈ v.tokens, t.IsDelimited := by
  cases h with
  | @object ms hdistinct hnames hbool =>
    cases ms with
    | nil => decide
    | cons m ms =>
      change ∀ t ∈ Token.openBrace :: (Value.moreMembers (m :: ms)).tail, t.IsDelimited
      rw [List.forall_mem_cons]
      exact ⟨by decide, fun t ht => delimited_moreMembers hbool t (List.mem_of_mem_tail ht)⟩
  | @array vs hlength hbool =>
    cases vs with
    | nil => decide
    | cons v vs =>
      change ∀ t ∈ Token.openBracket :: (Value.moreElements (v :: vs)).tail, t.IsDelimited
      rw [List.forall_mem_cons]
      exact ⟨by decide, fun t ht => delimited_moreElements hbool t (List.mem_of_mem_tail ht)⟩

/-- A text that may be read as it is with something after it is one for a single value, and only
blanks come after it. -/
theorem eq_of_isWrittenBy_append (h : v.IsWrittenBy cs) (hw : IsChoices w)
    (h' : w.IsWrittenBy (cs ++ rest)) : v = w ∧ Json.IsBlank rest := by
  have htokens : Json.tokens (cs ++ rest) = w.tokens := (Json.writes_iff hw.delimited).mp h'
  have hd : ∀ t ∈ v.tokens, t.IsDelimited := h.delimited (htokens ▸ hw.delimited)
  have hinj := htokens.symm.trans (Json.tokens_append h hd)
  rw [← List.append_nil w.tokens] at hinj
  obtain ⟨rfl, hrest⟩ := Value.tokens_append_inj _ _ hinj
  exact ⟨rfl, Json.tokens_eq_nil_iff.mp hrest.symm⟩

theorem parse_eq_ok :
    parse text = .ok p ↔ ∃ v, v.IsWrittenBy text.toList ∧ IsChoices v ∧ p.IsGivenBy v := by
  rw [parse, ofTokens_eq_ok]
  refine exists_congr fun v => ?_
  rw [and_comm]
  refine and_congr_left fun h => ?_
  rw [Value.IsWrittenBy, Json.writes_iff h.1.delimited]

/-- On a text for a value, it is only the value that counts. -/
theorem parse_eq_ok_of_isWrittenBy (h : v.IsWrittenBy text.toList) :
    parse text = .ok p ↔ IsChoices v ∧ p.IsGivenBy v := by
  rw [parse_eq_ok]
  constructor
  · rintro ⟨w, hw, hchoices, hp⟩
    rw [← List.append_nil text.toList] at hw
    obtain ⟨rfl, -⟩ := eq_of_isWrittenBy_append h hchoices hw
    exact ⟨hchoices, hp⟩
  · exact fun hv => ⟨v, h, hv⟩

theorem exists_error (h : ∀ p, parse text ≠ .ok p) : ∃ e, parse text = .error e := by
  cases hp : parse text with
  | error e => exact ⟨e, rfl⟩
  | ok p => exact absurd hp (h p)

theorem exists_error_of_not_isChoices (h : v.IsWrittenBy text.toList) (hv : ¬ IsChoices v) :
    ∃ e, parse text = .error e :=
  exists_error fun _ hp => hv ((parse_eq_ok_of_isWrittenBy h).mp hp).1

/-- The order of members does not matter for what they stand for. -/
theorem isGivenBy_perm {ns : List (List Char × Value)} (hp : ms.Perm ns) :
    IsChoices (.object ms) ∧ p.IsGivenBy (.object ms) →
      IsChoices (.object ns) ∧ p.IsGivenBy (.object ns) := by
  rintro ⟨hv, hchooses⟩
  cases hv with
  | object hdistinct hnames hbool =>
    refine ⟨.object ((hp.map _).nodup_iff.mp hdistinct) (fun m hm => hnames m (hp.mem_iff.mpr hm))
      fun m hm => hbool m (hp.mem_iff.mpr hm), ?_⟩
    simp only [IsGivenBy, Chooses, Gives, hp.mem_iff] at hchooses ⊢
    exact hchooses

/-- A policy that is written as a text is read from it. -/
theorem parse_render (p : Policy) : parse p.render = .ok p := by
  have hw : (Value.object [("autoboxing".toList, .bool p.boxing),
      ("escalation".toList, .bool p.unlocking)]).IsWrittenBy p.render.toList := by
    refine (Json.writes_iff (by simp [Value.tokens, Value.moreMembers, Token.IsDelimited])).mpr ?_
    obtain ⟨_ | _, _ | _⟩ := p <;> decide +kernel
  refine (parse_eq_ok_of_isWrittenBy hw).mpr ⟨.object ?_ ?_ ?_, .inl ?_, .inl ?_⟩
  · exact (by decide : ["autoboxing".toList, "escalation".toList].Nodup)
  · simp [IsName]
  · simp
  · simp [Gives]
  · simp [Gives]

/-- A policy is read from exactly the texts that are one for a value standing for it. So neither
blanks nor the way in which names are written count, nor the order of members; and a name that is
unknown or repeated, a value of another type, one too many, and anything but blanks after the end
are refused. -/
theorem parse_accepts (text : String) :
    ((∃ p, parse text = .ok p) ↔ ∃ v : Value, v.IsWrittenBy text.toList ∧ IsChoices v)
    ∧ (∀ v : Value, v.IsWrittenBy text.toList →
        ∀ p, parse text = .ok p ↔ IsChoices v ∧ p.IsGivenBy v)
    ∧ (∀ (ms ns : List (List Char × Value)) (text' : String), ms.Perm ns →
        (Value.object ms).IsWrittenBy text.toList → (Value.object ns).IsWrittenBy text'.toList →
        ∀ p, parse text = .ok p ↔ parse text' = .ok p)
    ∧ (∀ ms, (Value.object ms).IsWrittenBy text.toList →
        ((∃ m ∈ ms, ¬ IsName m.1) ∨ ¬ (ms.map Prod.fst).Nodup ∨ ∃ m ∈ ms, ∀ b, m.2 ≠ .bool b) →
        ∃ e, parse text = .error e)
    ∧ (∀ vs, (Value.array vs).IsWrittenBy text.toList →
        (2 < vs.length ∨ ∃ v ∈ vs, ∀ b, v ≠ .bool b) → ∃ e, parse text = .error e)
    ∧ (∀ (v : Value) (rest : String), v.IsWrittenBy text.toList → ¬ Json.IsBlank rest.toList →
        ∃ e, parse (text ++ rest) = .error e) := by
  refine ⟨?_, ?_, ?_, ?_, ?_, ?_⟩
  · constructor
    · rintro ⟨p, hp⟩
      obtain ⟨v, hw, hv, -⟩ := parse_eq_ok.mp hp
      exact ⟨v, hw, hv⟩
    · rintro ⟨v, hw, hv⟩
      obtain ⟨p, hp⟩ := hv.exists_isGivenBy
      exact ⟨p, parse_eq_ok.mpr ⟨v, hw, hv, hp⟩⟩
  · exact fun v hw p => parse_eq_ok_of_isWrittenBy hw
  · intro ms ns text' hperm hw hw' p
    rw [parse_eq_ok_of_isWrittenBy hw, parse_eq_ok_of_isWrittenBy hw']
    exact ⟨isGivenBy_perm hperm, isGivenBy_perm hperm.symm⟩
  · intro ms hw hbad
    refine exists_error_of_not_isChoices hw fun hv => ?_
    cases hv with
    | object hdistinct hnames hbool =>
      obtain ⟨m, hm, hname⟩ | hrepeated | ⟨m, hm, hvalue⟩ := hbad
      · exact hname (hnames m hm)
      · exact hrepeated hdistinct
      · obtain ⟨b, hb⟩ := hbool m hm
        exact hvalue b hb
  · intro vs hw hbad
    refine exists_error_of_not_isChoices hw fun hv => ?_
    cases hv with
    | array hlength hbool =>
      obtain hlong | ⟨v, hv, hvalue⟩ := hbad
      · omega
      · obtain ⟨b, hb⟩ := hbool v hv
        exact hvalue b hb
  · intro v rest hw hrest
    refine exists_error fun p hp => hrest ?_
    obtain ⟨w, hw', hv, -⟩ := parse_eq_ok.mp hp
    rw [String.toList_append] at hw'
    exact (eq_of_isWrittenBy_append hw hv hw').2

/-- Names may be escaped, come in any order and stand between blanks, but not twice. -/
theorem parse_accepts_escaped :
    parse "\x7b \"escalation\":\n false, \"\\u0061utoboxing\":true \x7d" =
        .ok { boxing := true, unlocking := false }
    ∧ parse "\x7b\"autoboxing\":true,\"escalation\":false\x7d" =
        .ok { boxing := true, unlocking := false }
    ∧ (∃ e, parse "\x7b\"autoboxing\":true,\"\\u0061utoboxing\":true\x7d" = .error e)
    ∧ (∃ e, parse "[true,null]" = .error e)
    ∧ ∃ e, parse ("[true] " ++ "\n,") = .error e := by
  have writes {v : Value} {text : String} (hd : ∀ t ∈ v.tokens, t.IsDelimited)
      (h : Json.tokens text.toList = v.tokens) : v.IsWrittenBy text.toList :=
    (Json.writes_iff hd).mpr h
  let ms : List (List Char × Value) :=
    [("escalation".toList, .bool false), ("autoboxing".toList, .bool true)]
  have hw : (Value.object ms).IsWrittenBy
      "\x7b \"escalation\":\n false, \"\\u0061utoboxing\":true \x7d".toList :=
    writes (by decide) (by decide +kernel)
  have hchoices : IsChoices (.object ms) :=
    .object (by decide) (by simp [ms, IsName]) (by simp [ms])
  have hgiven : IsGivenBy { boxing := true, unlocking := false } (.object ms) :=
    ⟨.inl (by simp [ms, Gives]), .inl (by simp [ms, Gives])⟩
  have hok := ((parse_accepts _).2.1 _ hw _).mpr ⟨hchoices, hgiven⟩
  refine ⟨hok, ?_, ?_, ?_, ?_⟩
  · exact ((parse_accepts _).2.2.1 ms ms.reverse _ (List.reverse_perm ms).symm hw
      (writes (by decide) (by decide +kernel)) _).mp hok
  · exact (parse_accepts _).2.2.2.1
      [("autoboxing".toList, .bool true), ("autoboxing".toList, .bool true)]
      (writes (by decide) (by decide +kernel)) (.inr (.inl (by decide)))
  · exact (parse_accepts _).2.2.2.2.1 [.bool true, .null] (writes (by decide) (by decide +kernel))
      (.inr ⟨.null, by simp, by simp⟩)
  · exact (parse_accepts _).2.2.2.2.2 (.array [.bool true]) _
      (writes (by decide) (by decide +kernel)) (by simp [Json.IsBlank])

end BestFit.Policy
