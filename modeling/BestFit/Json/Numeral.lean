import BestFit.Binary

/-! Numbers as JSON writes them: an optional minus sign, a whole part without a
leading zero, then a fraction and a power of ten, either of which may be missing. -/
namespace BestFit.Json

/-- The parts of a written number. The sign of the number itself is left out. -/
structure Numeral where
  whole : List Char
  fraction : List Char
  /-- Whether the power of ten is negative. -/
  shrinks : Bool
  power : List Char
deriving DecidableEq, Repr

/-- Splits off the digits in front. -/
def splitDigits (cs : List Char) : List Char × List Char :=
  (cs.takeWhile Char.isDigit, cs.dropWhile Char.isDigit)

/-- A run of at least one digit, and what follows it. -/
def digits? (cs : List Char) : Option (List Char × List Char) :=
  let (ds, rest) := splitDigits cs
  if ds.isEmpty then none else some (ds, rest)

/-- The whole part: a lone zero, or digits that do not start with one. -/
def whole? (cs : List Char) : Option (List Char × List Char) :=
  match digits? cs with
  | some ('0' :: _ :: _, _) => none
  | r => r

/-- A fraction, if there is one. After a point there has to be a digit. -/
def fraction? : List Char → Option (List Char × List Char)
  | '.' :: cs => digits? cs
  | cs => some ([], cs)

/-- A sign, if there is one, and whether it is a minus. -/
def splitSign : List Char → Bool × List Char
  | '+' :: cs => (false, cs)
  | '-' :: cs => (true, cs)
  | cs => (false, cs)

/-- A power of ten, if there is one. After the letter there has to be a digit. -/
def power? : List Char → Option ((Bool × List Char) × List Char)
  | c :: cs =>
      if c = 'e' ∨ c = 'E' then do
        let (shrinks, cs) := splitSign cs
        let (ds, rest) ← digits? cs
        return ((shrinks, ds), rest)
      else some ((false, []), c :: cs)
  | [] => some ((false, []), [])

/-- Passes over the sign of the number, if there is one. -/
def dropMinus : List Char → List Char
  | '-' :: cs => cs
  | cs => cs

/-- Reads a number and gives what follows it. -/
def numeral? (cs : List Char) : Option (Numeral × List Char) := do
  let (whole, rest) ← whole? (dropMinus cs)
  let (fraction, rest) ← fraction? rest
  let ((shrinks, power), rest) ← power? rest
  return ({ whole, fraction, shrinks, power }, rest)

/-! ## Progress -/

theorem length_of_digits? {cs ds rest : List Char} (h : digits? cs = some (ds, rest)) :
    rest.length < cs.length := by
  have hcs := congrArg List.length (List.takeWhile_append_dropWhile (p := Char.isDigit) (l := cs))
  rw [List.length_append] at hcs
  by_cases hne : (cs.takeWhile Char.isDigit) = []
  · simp [digits?, splitDigits, hne] at h
  · simp only [digits?, splitDigits, List.isEmpty_iff, hne, if_false, Option.some.injEq,
      Prod.mk.injEq] at h
    have hpos := List.length_pos_iff.mpr hne
    rw [← h.2]
    omega

theorem length_of_whole? {cs ds rest : List Char} (h : whole? cs = some (ds, rest)) :
    rest.length < cs.length := by
  unfold whole? at h
  split at h
  · cases h
  · exact length_of_digits? h

theorem length_of_fraction? {cs ds rest : List Char} (h : fraction? cs = some (ds, rest)) :
    rest.length ≤ cs.length := by
  unfold fraction? at h
  split at h
  · have := length_of_digits? h
    simp only [List.length_cons]
    omega
  · simp only [Option.some.injEq, Prod.mk.injEq] at h
    simp [h.2]

theorem length_of_splitSign (cs : List Char) : (splitSign cs).2.length ≤ cs.length := by
  unfold splitSign
  split <;> simp

theorem length_of_power? {cs rest : List Char} {p : Bool × List Char}
    (h : power? cs = some (p, rest)) : rest.length ≤ cs.length := by
  unfold power? at h
  split at h
  · next c cs =>
    split at h
    · simp only [bind, Option.bind_eq_some_iff, pure] at h
      obtain ⟨⟨ds, r⟩, hr, h⟩ := h
      have h1 := length_of_digits? hr
      have h2 := length_of_splitSign cs
      simp only [Option.some.injEq, Prod.mk.injEq] at h
      rw [← h.2, List.length_cons]
      omega
    · simp only [Option.some.injEq, Prod.mk.injEq] at h
      simp [← h.2]
  · simp only [Option.some.injEq, Prod.mk.injEq] at h
    simp [← h.2]

theorem length_of_dropMinus (cs : List Char) : (dropMinus cs).length ≤ cs.length := by
  unfold dropMinus
  split <;> simp

theorem length_of_numeral? {cs rest : List Char} {n : Numeral}
    (h : numeral? cs = some (n, rest)) : rest.length < cs.length := by
  simp only [numeral?, bind, Option.bind_eq_some_iff, pure] at h
  obtain ⟨⟨ws, r⟩, hw, ⟨fs, r'⟩, hf, ⟨p, r''⟩, hp, h⟩ := h
  have h1 := length_of_whole? hw
  have h2 := length_of_fraction? hf
  have h3 := length_of_power? hp
  have h4 := length_of_dropMinus cs
  simp only [Option.some.injEq, Prod.mk.injEq] at h h1 h2 h3
  rw [← h.2]
  omega

/-! ## Magnitude -/

/-- The number that a digit stands for. -/
def digitValue (c : Char) : Nat := c.toNat - '0'.toNat

/-- The number that digits stand for, the first one weighing most. -/
def digitsValue (ds : List Char) : Nat := ds.foldl (fun n d => n * 10 + digitValue d) 0

/-- Appends digits to a significand as long as it stays below `2 ^ 64`, and gives
the digits for which there was no room. -/
def absorb : Nat → List Char → Nat × List Char
  | n, [] => (n, [])
  | n, d :: ds =>
      let n' := n * 10 + digitValue d
      if n' < powerOfTwo 64 then absorb n' ds else (n, d :: ds)

namespace Numeral

/-- The number as a significand times a power of ten. Digits of the whole part for
which the significand has no room count as zeros, those of the fraction are
dropped. -/
def scaled (n : Numeral) : Nat × Int :=
  let (m, zeros) := absorb 0 n.whole
  let (m, dropped) := absorb m n.fraction
  let shift : Int := zeros.length - (n.fraction.length - dropped.length)
  let power : Int := digitsValue n.power
  (m, if n.shrinks then shift - power else shift + power)

/-- The point from which a number rounds to infinity in the wide binary format. -/
def overflowPoint : Nat := powerOfTwo 1024 - powerOfTwo 970

/-- Whether the number is too large for the wide binary format, its significand and
its power of ten being rounded to that format first. -/
def overflows (n : Numeral) : Bool :=
  let (m, power) := n.scaled
  let precision := BinaryFormat.double.precision
  m ≠ 0 && 0 ≤ power &&
    (308 < power ||
      overflowPoint ≤ nearest precision m * nearest precision (Nat.pow 10 power.toNat))

end Numeral

end BestFit.Json
