import BestFit.Proofs.Json.Quoting

/-!
# Texts are split into the tokens that the grammar gives them

A token that is no number is read from exactly the characters that write it, whatever follows
(`tokens_append`), and what is read is what was written (`writes_iff`). Where a number stands,
none of these tokens is read (`Writes.delimited`).
-/
namespace BestFit.Json

/-- A token that its last character ends. A number may go on with what follows it, and junk is no
token at all. -/
def Token.IsDelimited (t : Token) : Prop := t ≠ .number ∧ t ≠ .junk

instance (t : Token) : Decidable t.IsDelimited := inferInstanceAs (Decidable (_ ∧ _))

variable {c : Char} {bs cs w rest : List Char} {t : Token} {ts : List Token}

/-! ## One step -/

theorem isSpace_iff : isSpace c ↔ c ∈ [' ', '\t', '\n', '\r'] := by
  simp [isSpace, or_assoc]

theorem tokens_space (hc : isSpace c) : tokens (c :: cs) = tokens cs := by
  rw [tokens, if_pos hc]

theorem tokens_token (hc : ¬ isSpace c) (h : token? c cs = some (t, rest)) :
    tokens (c :: cs) = t :: tokens rest := by
  rw [tokens, if_neg hc]
  split <;> simp_all

theorem tokens_junk (hc : ¬ isSpace c) (h : token? c cs = none) : tokens (c :: cs) = [.junk] := by
  rw [tokens, if_neg hc]
  split <;> simp_all

theorem tokens_blank (hb : IsBlank bs) : tokens (bs ++ cs) = tokens cs := by
  induction bs with
  | nil => rfl
  | cons b bs ih =>
    rw [IsBlank, List.forall_mem_cons] at hb
    rw [List.cons_append, tokens_space (isSpace_iff.mpr hb.1), ih hb.2]

theorem tokens_eq_nil_iff : tokens cs = [] ↔ IsBlank cs := by
  constructor
  · intro h
    induction cs with
    | nil => simp [IsBlank]
    | cons c cs ih =>
      by_cases hc : isSpace c
      · rw [tokens_space hc] at h
        exact List.forall_mem_cons.mpr ⟨isSpace_iff.mp hc, ih h⟩
      · rw [tokens, if_neg hc] at h
        split at h <;> cases h
  · intro h
    rw [← List.append_nil cs, tokens_blank h, tokens]

/-! ## Tokens -/

/-- Where a token is written, it is read, and no more than it. -/
theorem token?_of_lexeme (h : Lexeme w t) (ht : t.IsDelimited) :
    ∃ c w', w = c :: w' ∧ ¬ isSpace c ∧ ∀ rest, token? c (w' ++ rest) = some (t, rest) := by
  cases h with
  | fixed h =>
    simp only [fixedLexemes, List.mem_cons, Prod.mk.injEq, List.not_mem_nil, or_false] at h
    rcases h with ⟨rfl, rfl⟩ | ⟨rfl, rfl⟩ | ⟨rfl, rfl⟩ | ⟨rfl, rfl⟩ | ⟨rfl, rfl⟩ | ⟨rfl, rfl⟩ |
      ⟨rfl, rfl⟩ | ⟨rfl, rfl⟩ | ⟨rfl, rfl⟩ <;> exact ⟨_, _, rfl, by decide, fun _ => rfl⟩
  | number => exact absurd rfl ht.1
  | text h =>
    exact ⟨'\"', _, rfl, by decide, fun rest => by simp [token?, quoted?_of_spells h]⟩

theorem afterWord?_eq_some {word : List Char} :
    afterWord? word cs = some rest ↔ cs = word ++ rest := by
  induction word generalizing cs with
  | nil => simp [afterWord?]
  | cons w ws ih =>
    cases cs with
    | nil => simp [afterWord?]
    | cons c cs =>
      by_cases hw : w = c
      · simp [afterWord?, hw, ih]
      · simp [afterWord?, hw, Ne.symm hw]

/-- What is read as a token is written there. -/
theorem lexeme_of_token? (h : token? c cs = some (t, rest)) (ht : t.IsDelimited) :
    ∃ w, c :: cs = w ++ rest ∧ Lexeme w t := by
  unfold token? at h
  split at h
  case h_7 | h_8 | h_9 =>
    obtain ⟨r, hr, h⟩ := Option.map_eq_some_iff.mp h
    cases h
    obtain rfl := afterWord?_eq_some.mp hr
    exact ⟨_ :: _, rfl, .fixed (by decide)⟩
  case h_10 =>
    obtain ⟨⟨s, r⟩, hr, h⟩ := Option.map_eq_some_iff.mp h
    cases h
    obtain ⟨w, rfl, hw⟩ := quoted?_eq_some.mp hr
    exact ⟨'\"' :: w ++ ['\"'], by simp, .text hw⟩
  case h_11 =>
    obtain ⟨r, -, h⟩ := Option.map_eq_some_iff.mp h
    cases h
    exact absurd rfl ht.1
  all_goals
    cases h
    exact ⟨[_], rfl, .fixed (by decide)⟩

theorem IsNumber.head (h : IsNumber (c :: w)) : c = '-' ∨ c.isDigit := by
  generalize hcs : c :: w = cs at h
  obtain ⟨rfl | rfl, ⟨⟨hne, hdigits⟩, -⟩, -, -⟩ := h
  · obtain ⟨d, ds, rfl⟩ := List.exists_cons_of_ne_nil hne
    cases hcs
    exact .inr (hdigits c (by simp))
  · cases hcs
    exact .inl rfl

theorem IsNumber.ne_nil (h : IsNumber w) : w ≠ [] := by
  obtain ⟨-, ⟨⟨hne, -⟩, -⟩, -, -⟩ := h
  simp [hne]

/-- Where a number is written, no other token is read. -/
theorem token?_of_isNumber (h : IsNumber (c :: w)) (ht : token? c cs = some (t, rest)) :
    t = .number := by
  have hc := h.head
  unfold token? at ht
  split at ht
  case h_11 =>
    obtain ⟨r, -, ht⟩ := Option.map_eq_some_iff.mp ht
    cases ht
    rfl
  all_goals
    exact absurd hc (by decide)

theorem not_delimited_of_isNumber (h : IsNumber w) :
    ∃ t ∈ tokens (w ++ rest), ¬ t.IsDelimited := by
  obtain ⟨c, w, rfl⟩ := List.exists_cons_of_ne_nil h.ne_nil
  have hc : ¬ isSpace c := by
    rw [isSpace_iff]
    simp only [List.mem_cons, List.not_mem_nil, or_false]
    rintro (rfl | rfl | rfl | rfl) <;> exact absurd h.head (by decide)
  rw [List.cons_append]
  cases ht : token? c (w ++ rest) with
  | none =>
    rw [tokens_junk hc ht]
    exact ⟨.junk, by simp, fun hd => hd.2 rfl⟩
  | some r =>
    rw [tokens_token hc ht, token?_of_isNumber h ht]
    exact ⟨.number, by simp, fun hd => hd.1 rfl⟩

/-! ## Texts -/

theorem Writes.space (hc : isSpace c) (h : Writes cs ts) : Writes (c :: cs) ts := by
  have hc := isSpace_iff.mp hc
  cases h with
  | done hb => exact .done (List.forall_mem_cons.mpr ⟨hc, hb⟩)
  | token hb h hs => exact Writes.token (List.forall_mem_cons.mpr ⟨hc, hb⟩) h hs

/-- Tokens that are written are read, and what follows them is read as it would be alone. -/
theorem tokens_append (h : Writes cs ts) (hd : ∀ t ∈ ts, t.IsDelimited) :
    tokens (cs ++ rest) = ts ++ tokens rest := by
  induction h with
  | done hb => rw [tokens_blank hb, List.nil_append]
  | token hb h _ ih =>
    rw [List.forall_mem_cons] at hd
    obtain ⟨c, w', rfl, hc, ht⟩ := token?_of_lexeme h hd.1
    rw [List.append_assoc, List.append_assoc, tokens_blank hb, List.cons_append,
      tokens_token hc (ht _), ih hd.2, List.cons_append]

theorem writes_tokens (hd : ∀ t ∈ tokens cs, t.IsDelimited) : Writes cs (tokens cs) := by
  fun_induction tokens cs with
  | case1 => exact .done (by simp [IsBlank])
  | case2 c cs hc ih => exact (ih hd).space hc
  | case3 => exact absurd rfl (hd .junk (by simp)).2
  | case4 c cs hc t rest h _ ih =>
    rw [List.forall_mem_cons] at hd
    obtain ⟨w, hw, hl⟩ := lexeme_of_token? h hd.1
    rw [hw, ← List.nil_append w]
    exact .token (by simp [IsBlank]) hl (ih hd.2)

theorem writes_iff (hd : ∀ t ∈ ts, t.IsDelimited) : Writes cs ts ↔ tokens cs = ts := by
  constructor
  · intro h
    rw [← List.append_nil cs, tokens_append h hd, tokens, List.append_nil]
  · rintro rfl
    exact writes_tokens hd

theorem Lexeme.delimited_or_isNumber (h : Lexeme w t) : t.IsDelimited ∨ IsNumber w := by
  cases h with
  | fixed h =>
    have hall : ∀ l ∈ fixedLexemes, l.2.IsDelimited := by decide
    exact .inl (hall _ h)
  | number h => exact .inr h
  | text => exact .inl ⟨nofun, nofun⟩

/-- A text in which no number is read has none written. -/
theorem Writes.delimited (h : Writes cs ts) (hd : ∀ t ∈ tokens (cs ++ rest), t.IsDelimited) :
    ∀ t ∈ ts, t.IsDelimited := by
  induction h with
  | done => simp
  | token hb h _ ih =>
    rw [List.append_assoc, List.append_assoc, tokens_blank hb] at hd
    obtain ht | hn := h.delimited_or_isNumber
    · obtain ⟨c, w', rfl, hc, hr⟩ := token?_of_lexeme h ht
      rw [List.cons_append, tokens_token hc (hr _), List.forall_mem_cons] at hd
      exact List.forall_mem_cons.mpr ⟨ht, ih hd.2⟩
    · obtain ⟨t, ht, hnot⟩ := not_delimited_of_isNumber hn
      exact absurd (hd t ht) hnot

end BestFit.Json
