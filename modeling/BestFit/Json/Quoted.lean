/-! Quoted text as JSON writes it. A backslash starts an escape; a character outside
the basic plane may be written as two escaped units, which only count together. -/
namespace BestFit.Json

/-- A piece of quoted text as written: a character, or an escaped 16-bit unit. -/
inductive Piece where
  | char (c : Char)
  | unit (n : Nat)
deriving DecidableEq, Repr

/-- The number that a hexadecimal digit stands for, in either case. -/
def hexDigit? (c : Char) : Option Nat :=
  if '0' ≤ c ∧ c ≤ '9' then some (c.toNat - '0'.toNat)
  else if 'a' ≤ c ∧ c ≤ 'f' then some (c.toNat - 'a'.toNat + 10)
  else if 'A' ≤ c ∧ c ≤ 'F' then some (c.toNat - 'A'.toNat + 10)
  else none

/-- The unit written by four hexadecimal digits. -/
def unit? (a b c d : Char) : Option Nat := do
  return (((← hexDigit? a) * 16 + (← hexDigit? b)) * 16 + (← hexDigit? c)) * 16 + (← hexDigit? d)

/-- The character that a one-letter escape stands for. -/
def escape? : Char → Option Char
  | '\"' => some '\"'
  | '\\' => some '\\'
  | '/' => some '/'
  | 'b' => some '\x08'
  | 'f' => some '\x0c'
  | 'n' => some '\n'
  | 'r' => some '\r'
  | 't' => some '\t'
  | _ => none

/-- Whether a character may stand for itself: control characters may not. -/
def isPlain (c : Char) : Bool := ' ' ≤ c

/-- Splits quoted text, its opening quote already taken, into pieces, up to and
without the closing quote. -/
def pieces? : List Char → Option (List Piece × List Char)
  | [] => none
  | '\"' :: rest => some ([], rest)
  | '\\' :: 'u' :: a :: b :: c :: d :: rest => do
      let n ← unit? a b c d
      let (ps, rest) ← pieces? rest
      return (.unit n :: ps, rest)
  | '\\' :: e :: rest => do
      let c ← escape? e
      let (ps, rest) ← pieces? rest
      return (.char c :: ps, rest)
  | c :: rest =>
      if isPlain c ∧ c ≠ '\\' then do
        let (ps, rest) ← pieces? rest
        return (.char c :: ps, rest)
      else none

/-- Whether a unit is the first of two. -/
def isHighUnit (n : Nat) : Bool := 0xD800 ≤ n && n < 0xDC00
/-- Whether a unit is the second of two. -/
def isLowUnit (n : Nat) : Bool := 0xDC00 ≤ n && n < 0xE000

/-- The character that a high and a low unit stand for together. -/
def ofUnits (high low : Nat) : Char :=
  .ofNat (0x10000 + (high - 0xD800) * 0x400 + (low - 0xDC00))

/-- Joins pieces into text. A high unit needs a low one right after it, and a low
unit a high one right before. -/
def join? : List Piece → Option (List Char)
  | [] => some []
  | .char c :: ps => do return c :: (← join? ps)
  | .unit n :: .unit m :: ps =>
      if isHighUnit n then
        if isLowUnit m then do return ofUnits n m :: (← join? ps) else none
      else if isLowUnit n then none
      else do return .ofNat n :: (← join? (.unit m :: ps))
  | .unit n :: ps =>
      if isHighUnit n ∨ isLowUnit n then none else do return .ofNat n :: (← join? ps)

/-- Reads quoted text, its opening quote already taken, and gives what follows it. -/
def quoted? (cs : List Char) : Option (List Char × List Char) := do
  let (ps, rest) ← pieces? cs
  return (← join? ps, rest)

theorem length_of_pieces? {cs : List Char} {ps : List Piece} {rest : List Char}
    (h : pieces? cs = some (ps, rest)) : rest.length < cs.length := by
  fun_induction pieces? cs generalizing ps rest with
  | case1 => simp at h
  | case2 => simp_all
  | case3 a b c d tail ih =>
    simp only [bind, Option.bind_eq_some_iff, pure] at h
    obtain ⟨n, -, ⟨qs, r⟩, hr, h⟩ := h
    have := ih hr
    simp_all
    omega
  | case4 e tail _ ih =>
    simp only [bind, Option.bind_eq_some_iff, pure] at h
    obtain ⟨n, -, ⟨qs, r⟩, hr, h⟩ := h
    have := ih hr
    simp_all
    omega
  | case5 c tail _ _ _ _ ih =>
    simp only [bind, Option.bind_eq_some_iff, pure] at h
    obtain ⟨⟨qs, r⟩, hr, h⟩ := h
    have := ih hr
    simp_all
    omega
  | case6 => simp at h

theorem length_of_quoted? {cs s rest : List Char} (h : quoted? cs = some (s, rest)) :
    rest.length < cs.length := by
  simp only [quoted?, bind, Option.bind_eq_some_iff, pure] at h
  obtain ⟨⟨ps, r⟩, hr, t, -, h⟩ := h
  have := length_of_pieces? hr
  simp_all

end BestFit.Json
