import Mathlib.Tactic.IntervalCases
import Mathlib.Tactic.Ring
import Mathlib.Tactic.Tauto
import BestFit.Proofs.Json.Grammar

/-!
# Quoted text is read as the grammar writes it

`quoted?_eq_some`: what is read up to a closing quote is what the characters before it spell, and
whatever spells a text is read as that text.
-/
namespace BestFit.Json

variable {a b c d e : Char} {n m : Nat} {w cs s rest : List Char} {ps qs : List Piece}

/-! ## Characters -/

theorem isPlain_iff : isPlain c ↔ 0x20 ≤ c.toNat := by
  simp only [isPlain, decide_eq_true_eq, Char.le_def, UInt32.le_iff_toNat_le]
  rfl

theorem escape?_eq_some : escape? e = some c ↔ (e, c) ∈ shortEscapes := by
  constructor
  · intro h
    unfold escape? at h
    split at h <;> simp_all [shortEscapes, eq_comm]
  · intro h
    simp only [shortEscapes, List.mem_cons, Prod.mk.injEq, List.not_mem_nil, or_false] at h
    rcases h with ⟨rfl, rfl⟩ | ⟨rfl, rfl⟩ | ⟨rfl, rfl⟩ | ⟨rfl, rfl⟩ | ⟨rfl, rfl⟩ | ⟨rfl, rfl⟩ |
      ⟨rfl, rfl⟩ | ⟨rfl, rfl⟩ <;> rfl

theorem isHexDigit_of_hexDigit? (h : hexDigit? c = some n) : IsHexDigit c n := by
  -- All digits are among the first characters, which are gone through one by one.
  have hall : ∀ k < 128, ∀ n ∈ hexDigit? (.ofNat k), IsHexDigit (.ofNat k) n := by decide
  have hlt : c.toNat < 128 := by
    simp only [hexDigit?, Char.le_def, UInt32.le_iff_toNat_le, Char.toNat_val] at h
    split_ifs at h with h09 haf hAF
    · exact Nat.lt_of_le_of_lt h09.2 (by decide)
    · exact Nat.lt_of_le_of_lt haf.2 (by decide)
    · exact Nat.lt_of_le_of_lt hAF.2 (by decide)
  have := hall c.toNat hlt n
  rw [Char.ofNat_toNat] at this
  exact this h

theorem hexDigit?_eq_some : hexDigit? c = some n ↔ IsHexDigit c n := by
  refine ⟨isHexDigit_of_hexDigit?, ?_⟩
  rintro ⟨hn, rfl | rfl⟩ <;> interval_cases n <;> rfl

theorem unit?_eq_some : unit? a b c d = some n ↔ IsHex [a, b, c, d] n := by
  simp only [unit?, bind, Option.bind_eq_some_iff, pure, Option.some.injEq, hexDigit?_eq_some]
  constructor
  · rintro ⟨w, ha, x, hb, y, hc, z, hd, rfl⟩
    convert IsHex.mk ha hb hc hd using 1
    ring
  · rintro ⟨ha, hb, hc, hd⟩
    exact ⟨_, ha, _, hb, _, hc, _, hd, by ring⟩

theorem IsHex.exists_unit? {ds : List Char} (h : IsHex ds n) :
    ∃ a b c d, ds = [a, b, c, d] ∧ unit? a b c d = some n := by
  cases h with
  | mk ha hb hc hd => exact ⟨_, _, _, _, rfl, unit?_eq_some.mpr (.mk ha hb hc hd)⟩

theorem IsHex.lt {ds : List Char} (h : IsHex ds n) : n < 0x10000 := by
  obtain ⟨⟨hw, -⟩, ⟨hx, -⟩, ⟨hy, -⟩, ⟨hz, -⟩⟩ := h
  omega

/-! ## Units -/

theorem isHighUnit_iff : isHighUnit n ↔ 0xD800 ≤ n ∧ n < 0xDC00 := by
  simp [isHighUnit]

theorem isLowUnit_iff : isLowUnit n ↔ 0xDC00 ≤ n ∧ n < 0xE000 := by
  simp [isLowUnit]

theorem toNat_valid (c : Char) : c.toNat < 0xD800 ∨ 0xDFFF < c.toNat ∧ c.toNat < 0x110000 :=
  c.valid

theorem toNat_ofNat_of_valid (h : n < 0xD800 ∨ 0xDFFF < n ∧ n < 0x110000) :
    (Char.ofNat n).toNat = n := by
  rw [Char.ofNat, dif_pos h]
  rfl

theorem not_isUnit_toNat (c : Char) : ¬ isHighUnit c.toNat ∧ ¬ isLowUnit c.toNat := by
  have := toNat_valid c
  rw [isHighUnit_iff, isLowUnit_iff]
  omega

theorem isHighUnit_highUnit (hc : 0x10000 ≤ c.toNat) : isHighUnit (highUnit c) := by
  have := toNat_valid c
  rw [isHighUnit_iff, highUnit]
  omega

theorem isLowUnit_lowUnit (c : Char) : isLowUnit (lowUnit c) := by
  rw [isLowUnit_iff, lowUnit]
  omega

theorem ofUnits_highUnit_lowUnit (hc : 0x10000 ≤ c.toNat) :
    ofUnits (highUnit c) (lowUnit c) = c := by
  have h : 0x10000 + (highUnit c - 0xD800) * 0x400 + (lowUnit c - 0xDC00) = c.toNat := by
    rw [highUnit, lowUnit]
    omega
  rw [ofUnits, h, Char.ofNat_toNat]

theorem toNat_ofUnits (hn : isHighUnit n) (hm : isLowUnit m) :
    (ofUnits n m).toNat = 0x10000 + (n - 0xD800) * 0x400 + (m - 0xDC00) := by
  rw [isHighUnit_iff] at hn
  rw [isLowUnit_iff] at hm
  exact toNat_ofNat_of_valid (by omega)

theorem highUnit_ofUnits (hn : isHighUnit n) (hm : isLowUnit m) :
    highUnit (ofUnits n m) = n := by
  rw [highUnit, toNat_ofUnits hn hm]
  rw [isHighUnit_iff] at hn
  rw [isLowUnit_iff] at hm
  omega

theorem lowUnit_ofUnits (hn : isHighUnit n) (hm : isLowUnit m) :
    lowUnit (ofUnits n m) = m := by
  rw [lowUnit, toNat_ofUnits hn hm]
  rw [isHighUnit_iff] at hn
  rw [isLowUnit_iff] at hm
  omega

/-! ## Pieces -/

theorem pieces?_plain (hc : 0x20 ≤ c.toNat) (hquote : c ≠ '\"') (hslash : c ≠ '\\') :
    pieces? (c :: cs) = (pieces? cs).map (Prod.map ([.char c] ++ ·) id) := by
  have := isPlain_iff.mpr hc
  rw [pieces?] <;> simp [*, Option.map_eq_bind]
  rfl

theorem pieces?_short (h : escape? e = some c) :
    pieces? ('\\' :: e :: cs) = (pieces? cs).map (Prod.map ([.char c] ++ ·) id) := by
  rw [pieces?]
  · simp [h, Option.map_eq_bind]
    rfl
  · rintro _ _ _ _ _ rfl
    cases h

theorem pieces?_unit (h : unit? a b c d = some n) :
    pieces? ('\\' :: 'u' :: a :: b :: c :: d :: cs) =
      (pieces? cs).map (Prod.map ([.unit n] ++ ·) id) := by
  simp [pieces?, h, Option.map_eq_bind]
  rfl

theorem join?_unit (hn : ¬ isHighUnit n ∧ ¬ isLowUnit n) :
    join? (.unit n :: ps) = (join? ps).map (.ofNat n :: ·) := by
  cases ps with
  | nil => simp [join?, hn]
  | cons p ps => cases p <;> simp [join?, hn, Option.map_eq_bind]

theorem join?_pair (hn : isHighUnit n) (hm : isLowUnit m) :
    join? (.unit n :: .unit m :: ps) = (join? ps).map (ofUnits n m :: ·) := by
  simp [join?, hn, hm, Option.map_eq_bind]

/-! ## Reading what is written -/

/-- Quoted text may be read in two steps at any place where neither breaks up the other's pieces. -/
theorem quoted?_of_pieces? (ps : List Piece) {cs' : List Char}
    (hp : pieces? cs' = (pieces? cs).map (Prod.map (ps ++ ·) id))
    (hj : ∀ qs, join? (ps ++ qs) = (join? qs).map (c :: ·)) :
    quoted? cs' = (quoted? cs).map (Prod.map (c :: ·) id) := by
  simp only [quoted?, hp]
  cases pieces? cs with
  | none => rfl
  | some r => simp [hj, Option.map_eq_bind, Option.bind_assoc]

theorem quoted?_append (h : Escapes w c) :
    quoted? (w ++ cs) = (quoted? cs).map (Prod.map (c :: ·) id) := by
  cases h with
  | plain hc hquote hslash =>
    refine quoted?_of_pieces? _ (pieces?_plain hc hquote hslash) fun qs => ?_
    simp [join?, Option.map_eq_bind]
  | short h =>
    refine quoted?_of_pieces? _ (pieces?_short (escape?_eq_some.mpr h)) fun qs => ?_
    simp [join?, Option.map_eq_bind]
  | unit hc h =>
    obtain ⟨x₁, x₂, x₃, x₄, rfl, hx⟩ := h.exists_unit?
    refine quoted?_of_pieces? _ (pieces?_unit hx) fun qs => ?_
    rw [List.singleton_append, join?_unit (not_isUnit_toNat c), Char.ofNat_toNat]
  | pair hc h h' =>
    obtain ⟨x₁, x₂, x₃, x₄, rfl, hx⟩ := h.exists_unit?
    obtain ⟨y₁, y₂, y₃, y₄, rfl, hy⟩ := h'.exists_unit?
    refine quoted?_of_pieces? [.unit (highUnit c), .unit (lowUnit c)] ?_ fun qs => ?_
    · simp only [List.cons_append, List.nil_append, pieces?_unit hx, pieces?_unit hy,
        Option.map_map]
      rfl
    · simp only [List.cons_append, List.nil_append,
        join?_pair (isHighUnit_highUnit hc) (isLowUnit_lowUnit c), ofUnits_highUnit_lowUnit hc]

theorem quoted?_of_spells (h : Spells cs s) : quoted? (cs ++ '\"' :: rest) = some (s, rest) := by
  induction h with
  | nil => rfl
  | cons h _ ih => rw [List.append_assoc, quoted?_append h, ih]; rfl

/-! ## Writing what is read -/

/-- What quoted text starts with, by its first piece. -/
theorem pieces?_cases (h : pieces? cs = some (ps, rest)) :
    (ps = [] ∧ cs = '\"' :: rest) ∨
    (∃ w c cs' qs, Escapes w c ∧ cs = w ++ cs' ∧ ps = .char c :: qs ∧
      pieces? cs' = some (qs, rest)) ∨
    ∃ ds n cs' qs, IsHex ds n ∧ cs = '\\' :: 'u' :: ds ++ cs' ∧ ps = .unit n :: qs ∧
      pieces? cs' = some (qs, rest) := by
  unfold pieces? at h
  split at h
  · cases h
  · cases h
    exact .inl ⟨rfl, rfl⟩
  · next a b c d cs' =>
    simp only [bind, Option.bind_eq_some_iff, pure, Option.some.injEq] at h
    obtain ⟨n, hn, ⟨qs, r⟩, hr, h⟩ := h
    cases h
    exact .inr (.inr ⟨[a, b, c, d], n, cs', qs, unit?_eq_some.mp hn, rfl, rfl, hr⟩)
  · next e cs' _ =>
    simp only [bind, Option.bind_eq_some_iff, pure, Option.some.injEq] at h
    obtain ⟨c, hc, ⟨qs, r⟩, hr, h⟩ := h
    cases h
    exact .inr (.inl ⟨['\\', e], c, cs', qs, .short (escape?_eq_some.mp hc), rfl, rfl, hr⟩)
  · next c cs' hquote _ _ =>
    simp only [bind, Option.bind_eq_some_iff, pure, Option.ite_none_right_eq_some,
      Option.some.injEq] at h
    obtain ⟨⟨hc, hslash⟩, ⟨qs, r⟩, hr, h⟩ := h
    cases h
    exact .inr (.inl ⟨[c], c, cs', qs, .plain (isPlain_iff.mp hc) hquote hslash, rfl, rfl, hr⟩)

/-- A unit stands for a character on its own, or together with the unit after it. -/
theorem join?_unit_cases (h : join? (.unit n :: ps) = some s) :
    (¬ isHighUnit n ∧ ¬ isLowUnit n ∧ ∃ s', s = .ofNat n :: s' ∧ join? ps = some s') ∨
    ∃ m qs s', isHighUnit n ∧ isLowUnit m ∧ ps = .unit m :: qs ∧ s = ofUnits n m :: s' ∧
      join? qs = some s' := by
  by_cases hn : ¬ isHighUnit n ∧ ¬ isLowUnit n
  · rw [join?_unit hn, Option.map_eq_some_iff] at h
    obtain ⟨s', hs, rfl⟩ := h
    exact .inl ⟨hn.1, hn.2, s', rfl, hs⟩
  · -- A unit that is no character of its own needs a second one.
    have hn : isHighUnit n ∨ isLowUnit n := by tauto
    cases ps with
    | nil => simp [join?, hn] at h
    | cons p qs =>
      cases p with
      | char c => simp [join?, hn] at h
      | unit m =>
        rw [join?] at h
        split at h
        · next hhigh =>
          simp only [bind, Option.ite_none_right_eq_some, Option.bind_eq_some_iff, pure,
            Option.some.injEq] at h
          obtain ⟨hlow, s', hs, rfl⟩ := h
          exact .inr ⟨m, qs, s', hhigh, hlow, rfl, rfl, hs⟩
        · next hhigh => simp [hn.resolve_left hhigh] at h

theorem quoted?_eq_some_iff_join? :
    quoted? cs = some (s, rest) ↔ ∃ ps, pieces? cs = some (ps, rest) ∧ join? ps = some s := by
  simp only [quoted?, bind, Option.bind_eq_some_iff, pure, Option.some.injEq, Prod.exists,
    Prod.mk.injEq]
  constructor
  · rintro ⟨ps, r, hp, s', hj, rfl, rfl⟩
    exact ⟨ps, hp, hj⟩
  · rintro ⟨ps, hp, hj⟩
    exact ⟨ps, rest, hp, s, hj, rfl, rfl⟩

/-- Quoted text that is read is over, or starts with a character as it may be written. -/
theorem quoted?_cases (h : quoted? cs = some (s, rest)) :
    (s = [] ∧ cs = '\"' :: rest) ∨
    ∃ w c cs' s', Escapes w c ∧ cs = w ++ cs' ∧ s = c :: s' ∧ quoted? cs' = some (s', rest) := by
  obtain ⟨ps, hp, hj⟩ := quoted?_eq_some_iff_join?.mp h
  obtain ⟨rfl, rfl⟩ | ⟨w, c, cs', qs, hw, rfl, rfl, hq⟩ | ⟨ds, n, cs', qs, hds, rfl, rfl, hq⟩ :=
    pieces?_cases hp
  · cases hj
    exact .inl ⟨rfl, rfl⟩
  · simp only [join?, bind, Option.bind_eq_some_iff, pure, Option.some.injEq] at hj
    obtain ⟨s', hj, rfl⟩ := hj
    exact .inr ⟨w, c, cs', s', hw, rfl, rfl, quoted?_eq_some_iff_join?.mpr ⟨qs, hq, hj⟩⟩
  · right
    obtain ⟨hhigh, hlow, s', rfl, hs⟩ | ⟨m, qs', s', hhigh, hlow, rfl, rfl, hs⟩ :=
      join?_unit_cases hj
    · have hn : (Char.ofNat n).toNat = n := by
        have := hds.lt
        rw [isHighUnit_iff] at hhigh
        rw [isLowUnit_iff] at hlow
        exact toNat_ofNat_of_valid (by omega)
      refine ⟨_, _, cs', s', .unit ?_ (by rwa [hn]), rfl, rfl,
        quoted?_eq_some_iff_join?.mpr ⟨qs, hq, hs⟩⟩
      rw [hn]
      exact hds.lt
    · -- The second unit of the pair is read from what follows the first.
      obtain ⟨hps, -⟩ | ⟨_, _, _, _, -, -, hps, -⟩ | ⟨ds', m', cs'', qs, hds', rfl, hps, hq⟩ :=
        pieces?_cases hq
      · cases hps
      · cases hps
      · cases hps
        refine ⟨'\\' :: 'u' :: ds ++ '\\' :: 'u' :: ds', ofUnits n m, cs'', s', .pair ?_ ?_ ?_, ?_,
          rfl, quoted?_eq_some_iff_join?.mpr ⟨_, hq, hs⟩⟩
        · rw [toNat_ofUnits hhigh hlow]
          omega
        · rwa [highUnit_ofUnits hhigh hlow]
        · rwa [lowUnit_ofUnits hhigh hlow]
        · simp

theorem spells_of_quoted? (h : quoted? cs = some (s, rest)) :
    ∃ w, cs = w ++ '\"' :: rest ∧ Spells w s := by
  induction s generalizing cs with
  | nil =>
    obtain ⟨-, rfl⟩ | ⟨_, _, _, _, -, -, hs, -⟩ := quoted?_cases h
    · exact ⟨[], rfl, .nil⟩
    · cases hs
  | cons c s ih =>
    obtain ⟨hs, -⟩ | ⟨w, _, cs', _, hw, rfl, hs, hq⟩ := quoted?_cases h
    · cases hs
    · cases hs
      obtain ⟨w', rfl, hw'⟩ := ih hq
      exact ⟨w ++ w', (List.append_assoc ..).symm, .cons hw hw'⟩

theorem quoted?_eq_some :
    quoted? cs = some (s, rest) ↔ ∃ w, cs = w ++ '\"' :: rest ∧ Spells w s := by
  constructor
  · exact spells_of_quoted?
  · rintro ⟨w, rfl, hw⟩
    exact quoted?_of_spells hw

end BestFit.Json
