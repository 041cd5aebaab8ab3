import BestFit.Json.Token

/-!
# The grammar of JSON texts

What a text says as JSON, told apart from how one is read: quoted text (`Spells`), numbers
(`IsNumber`), tokens (`Lexeme`) with blanks around them (`Writes`), and values, of which a text is
one when it writes the tokens of the value (`Value.IsWrittenBy`). Tokens are those of one value at
most (`Value.tokens_append_inj`).
-/
namespace BestFit.Json

/-! ## Quoted text -/

/-- The letters of the short escapes, each with the character that it stands for. -/
def shortEscapes : List (Char × Char) :=
  [('\"', '\"'), ('\\', '\\'), ('/', '/'), ('b', '\x08'), ('f', '\x0c'), ('n', '\n'), ('r', '\r'),
    ('t', '\t')]

/-- A hexadecimal digit, in either case. -/
def IsHexDigit (c : Char) (n : Nat) : Prop :=
  n < 16 ∧ (c = n.digitChar ∨ c = n.digitChar.toUpper)

instance (c : Char) (n : Nat) : Decidable (IsHexDigit c n) :=
  inferInstanceAs (Decidable (_ ∧ _))

/-- A number in four hexadecimal digits. -/
inductive IsHex : List Char → Nat → Prop
  | mk {a b c d : Char} {w x y z : Nat} (ha : IsHexDigit a w) (hb : IsHexDigit b x)
      (hc : IsHexDigit c y) (hd : IsHexDigit d z) :
      IsHex [a, b, c, d] (0x1000 * w + 0x100 * x + 0x10 * y + z)

/-- The two units of a character beyond the basic plane. -/
def highUnit (c : Char) : Nat := 0xD800 + (c.toNat - 0x10000) / 0x400

@[inherit_doc highUnit]
def lowUnit (c : Char) : Nat := 0xDC00 + (c.toNat - 0x10000) % 0x400

/-- One character as it may be written within quotes: as itself, by a short escape, or by its units
in hexadecimal. -/
inductive Escapes : List Char → Char → Prop
  | plain {c : Char} (hc : 0x20 ≤ c.toNat) (hquote : c ≠ '\"') (hslash : c ≠ '\\') : Escapes [c] c
  | short {e c : Char} (h : (e, c) ∈ shortEscapes) : Escapes ['\\', e] c
  | unit {ds : List Char} {c : Char} (hc : c.toNat < 0x10000) (h : IsHex ds c.toNat) :
      Escapes ('\\' :: 'u' :: ds) c
  | pair {ds ds' : List Char} {c : Char} (hc : 0x10000 ≤ c.toNat) (h : IsHex ds (highUnit c))
      (h' : IsHex ds' (lowUnit c)) : Escapes ('\\' :: 'u' :: ds ++ '\\' :: 'u' :: ds') c

/-- What stands between the quotes of a text. -/
inductive Spells : List Char → List Char → Prop
  | nil : Spells [] []
  | cons {w cs s : List Char} {c : Char} (h : Escapes w c) (hs : Spells cs s) :
      Spells (w ++ cs) (c :: s)

/-! ## Numbers -/

/-- One decimal digit or more. -/
def IsDigits (ds : List Char) : Prop := ds ≠ [] ∧ ∀ d ∈ ds, d.isDigit

/-- A whole part, a fraction and a power of ten. Only a lone zero starts with a zero. -/
inductive IsNumber : List Char → Prop
  | mk {sign whole fraction power : List Char} (hsign : sign = [] ∨ sign = ['-'])
      (hwhole : IsDigits whole ∧ (whole.head? = some '0' → whole = ['0']))
      (hfraction : fraction = [] ∨ ∃ ds, IsDigits ds ∧ fraction = '.' :: ds)
      (hpower : power = [] ∨ ∃ e s ds, e ∈ ['e', 'E'] ∧ s ∈ [[], ['+'], ['-']] ∧ IsDigits ds ∧
        power = e :: s ++ ds) :
      IsNumber (sign ++ whole ++ fraction ++ power)

/-! ## Tokens -/

/-- The tokens that are written in one way only. -/
def fixedLexemes : List (List Char × Token) :=
  [(['{'], .openBrace), (['}'], .closeBrace), (['['], .openBracket), ([']'], .closeBracket),
    ([':'], .colon), ([','], .comma), (['n', 'u', 'l', 'l'], .null),
    (['t', 'r', 'u', 'e'], .bool true), (['f', 'a', 'l', 's', 'e'], .bool false)]

/-- The ways to write a token. -/
inductive Lexeme : List Char → Token → Prop
  | fixed {cs : List Char} {t : Token} (h : (cs, t) ∈ fixedLexemes) : Lexeme cs t
  | number {cs : List Char} (h : IsNumber cs) : Lexeme cs .number
  | text {cs s : List Char} (h : Spells cs s) : Lexeme ('\"' :: cs ++ ['\"']) (.text s)

/-- White space between tokens. -/
def IsBlank (cs : List Char) : Prop := ∀ c ∈ cs, c ∈ [' ', '\t', '\n', '\r']

/-- Tokens in a row, with blanks around them. -/
inductive Writes : List Char → List Token → Prop
  | done {bs : List Char} (hb : IsBlank bs) : Writes bs []
  | token {bs w cs : List Char} {t : Token} {ts : List Token} (hb : IsBlank bs) (h : Lexeme w t)
      (hs : Writes cs ts) : Writes (bs ++ w ++ cs) (t :: ts)

/-! ## Values -/

/-- A value. Which number a number is does not matter here. -/
inductive Value where
  | null
  | bool (b : Bool)
  | number
  | text (s : List Char)
  | array (vs : List Value)
  | object (ms : List (List Char × Value))

namespace Value

mutual

/-- The tokens that make up a value. -/
def tokens : Value → List Token
  | null => [.null]
  | bool b => [.bool b]
  | number => [.number]
  | text s => [.text s]
  | array [] => [.openBracket, .closeBracket]
  | array (v :: vs) => .openBracket :: v.tokens ++ moreElements vs
  | object [] => [.openBrace, .closeBrace]
  | object ((name, v) :: ms) => .openBrace :: .text name :: .colon :: v.tokens ++ moreMembers ms

/-- The tokens after an element, the elements that follow it being given. -/
def moreElements : List Value → List Token
  | [] => [.closeBracket]
  | v :: vs => .comma :: v.tokens ++ moreElements vs

/-- The tokens after a member, the members that follow it being given. -/
def moreMembers : List (List Char × Value) → List Token
  | [] => [.closeBrace]
  | (name, v) :: ms => .comma :: .text name :: .colon :: v.tokens ++ moreMembers ms

end

/-- That a text is one for the value. -/
def IsWrittenBy (v : Value) (cs : List Char) : Prop := Writes cs v.tokens

/-! ## A text is one for a single value -/

/-- The first token of a value, which tells values of different forms apart. -/
def firstToken : Value → Token
  | null => .null
  | bool b => .bool b
  | number => .number
  | text s => .text s
  | array _ => .openBracket
  | object _ => .openBrace

theorem exists_tokens_eq_cons (v : Value) : ∃ ts, v.tokens = v.firstToken :: ts := by
  cases v with
  | array vs => cases vs <;> exact ⟨_, rfl⟩
  | object ms => cases ms <;> exact ⟨_, rfl⟩
  | _ => exact ⟨_, rfl⟩

theorem firstToken_eq {v w : Value} {ts us : List Token} (h : v.tokens ++ ts = w.tokens ++ us) :
    v.firstToken = w.firstToken := by
  obtain ⟨vs, hv⟩ := v.exists_tokens_eq_cons
  obtain ⟨ws, hw⟩ := w.exists_tokens_eq_cons
  rw [hv, hw] at h
  exact (List.cons.inj h).1

/-- No value starts where an array ends. -/
theorem tokens_append_ne (v : Value) {ts us : List Token} :
    v.tokens ++ ts ≠ .closeBracket :: us := by
  obtain ⟨vs, hv⟩ := v.exists_tokens_eq_cons
  cases v <;> simp [hv, firstToken]

mutual

/-- Tokens start with at most one value. The induction is on the value, along with the elements and
the members that are left of it. -/
theorem tokens_append_inj (v w : Value) {ts us : List Token}
    (h : v.tokens ++ ts = w.tokens ++ us) : v = w ∧ ts = us := by
  have hfirst := firstToken_eq h
  cases v <;> cases w <;> cases hfirst
  case array.array.refl vs ws =>
    match vs, ws, h with
    | [], [], h => simpa [tokens] using h
    | [], w :: ws, h => exact absurd (List.cons.inj h).2.symm (by simp [tokens_append_ne])
    | v :: vs, [], h => exact absurd (List.cons.inj h).2 (by simp [tokens_append_ne])
    | v :: vs, w :: ws, h =>
      simp only [tokens, List.cons_append, List.append_assoc, List.cons.injEq, true_and] at h
      obtain ⟨rfl, hrest⟩ := tokens_append_inj v w h
      obtain ⟨rfl, hmore⟩ := moreElements_append_inj vs ws hrest
      exact ⟨rfl, hmore⟩
  case object.object.refl ms ns =>
    match ms, ns, h with
    | [], [], h => simpa [tokens] using h
    | [], _ :: _, h => simp [tokens] at h
    | _ :: _, [], h => simp [tokens] at h
    | (m, v) :: ms, (n, w) :: ns, h =>
      simp only [tokens, List.cons_append, List.append_assoc, List.cons.injEq, Token.text.injEq,
        true_and] at h
      obtain ⟨rfl, h⟩ := h
      obtain ⟨rfl, hrest⟩ := tokens_append_inj v w h
      obtain ⟨rfl, hmore⟩ := moreMembers_append_inj ms ns hrest
      exact ⟨rfl, hmore⟩
  all_goals simpa [tokens] using h

theorem moreElements_append_inj (vs ws : List Value) {ts us : List Token}
    (h : moreElements vs ++ ts = moreElements ws ++ us) : vs = ws ∧ ts = us := by
  match vs, ws, h with
  | [], [], h => simpa [moreElements] using h
  | [], _ :: _, h => simp [moreElements] at h
  | _ :: _, [], h => simp [moreElements] at h
  | v :: vs, w :: ws, h =>
    simp only [moreElements, List.cons_append, List.append_assoc, List.cons.injEq, true_and] at h
    obtain ⟨rfl, hrest⟩ := tokens_append_inj v w h
    obtain ⟨rfl, hmore⟩ := moreElements_append_inj vs ws hrest
    exact ⟨rfl, hmore⟩

theorem moreMembers_append_inj (ms ns : List (List Char × Value)) {ts us : List Token}
    (h : moreMembers ms ++ ts = moreMembers ns ++ us) : ms = ns ∧ ts = us := by
  match ms, ns, h with
  | [], [], h => simpa [moreMembers] using h
  | [], _ :: _, h => simp [moreMembers] at h
  | _ :: _, [], h => simp [moreMembers] at h
  | (m, v) :: ms, (n, w) :: ns, h =>
    simp only [moreMembers, List.cons_append, List.append_assoc, List.cons.injEq,
      Token.text.injEq, true_and] at h
    obtain ⟨rfl, h⟩ := h
    obtain ⟨rfl, hrest⟩ := tokens_append_inj v w h
    obtain ⟨rfl, hmore⟩ := moreMembers_append_inj ms ns hrest
    exact ⟨rfl, hmore⟩

end

end Value

end BestFit.Json
