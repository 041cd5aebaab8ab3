/-! Binary floating point, as far as conversions need it: whole numbers are rounded
to a format, and the narrow format goes into the wide one without loss. A number is
kept as its encoding, sign bit first, then exponent, then fraction, so that equality
of encodings stays apart from equality of numbers. -/
namespace BestFit

/-- The power of two with a given exponent. -/
def powerOfTwo (k : Nat) : Nat := Nat.pow 2 k

/-- The multiple of `2 ^ k` nearest to `n`, counted in units of `2 ^ k`. A tie goes
to the even count. -/
def roundShift (n k : Nat) : Nat :=
  let q := n / powerOfTwo k
  let r := n % powerOfTwo k
  if 2 * r < powerOfTwo k then q else if 2 * r > powerOfTwo k then q + 1 else q + q % 2

/-- The number with at most `p` binary digits of precision nearest to `n`. -/
def nearest (p n : Nat) : Nat :=
  let k := n.log2 + 1 - p
  roundShift n k * powerOfTwo k

/-- A binary interchange format. -/
structure BinaryFormat where
  /-- Digits of a significand, the leading one included though it is not stored. -/
  precision : Nat
  exponentBits : Nat
deriving DecidableEq, Repr

namespace BinaryFormat

/-- The format of 32 bits. -/
def single : BinaryFormat := ⟨24, 8⟩

/-- The format of 64 bits. -/
def double : BinaryFormat := ⟨53, 11⟩

variable (f : BinaryFormat)

/-- The stored digits of the significand; the leading one is understood. -/
def fractionBits : Nat := f.precision - 1

/-- What is added to an exponent to store it. -/
def bias : Nat := powerOfTwo (f.exponentBits - 1) - 1

/-- The weight of the sign bit. -/
def signWeight : Nat := powerOfTwo (f.exponentBits + f.fractionBits)

/-- The encoding without its sign. -/
def magnitude (bits : Nat) : Nat := bits % f.signWeight

/-- Whether the sign bit is set. -/
def isNegative (bits : Nat) : Bool := f.signWeight ≤ bits

/-- The magnitude of infinity; the larger ones are no numbers. -/
def infinity : Nat := (powerOfTwo f.exponentBits - 1) * powerOfTwo f.fractionBits

/-- Whether the encoding is of no number. -/
def isNaN (bits : Nat) : Bool := f.infinity < f.magnitude bits

/-- Whether the number is zero, of either sign. -/
def isZero (bits : Nat) : Bool := f.magnitude bits = 0

/-- The magnitude that encodes a whole number of at most `precision` digits. The
stored exponent and fraction are read as one number, in which the leading digit of
the significand counts once. -/
def encodeExact (n : Nat) : Nat :=
  if n = 0 then 0
  else
    (n.log2 + f.bias - 1) * powerOfTwo f.fractionBits +
      n * powerOfTwo f.fractionBits / powerOfTwo n.log2

/-- The encoding of the number nearest to a whole number. -/
def ofInt (n : Int) : Nat :=
  (if n < 0 then f.signWeight else 0) + f.encodeExact (nearest f.precision n.natAbs)

/-- Equality of numbers: a NaN equals nothing, and the two zeros are equal. -/
def sameNumber (a b : Nat) : Bool :=
  !f.isNaN a && !f.isNaN b && (a = b || (f.isZero a && f.isZero b))

/-- Whether the number is less than zero. -/
def isBelowZero (bits : Nat) : Bool :=
  f.isNegative bits && !f.isNaN bits && !f.isZero bits

end BinaryFormat

/-- A number in the format of 32 bits. -/
structure Binary32 where
  bits : UInt32
deriving DecidableEq, Repr

/-- A number in the format of 64 bits. -/
structure Binary64 where
  bits : UInt64
deriving DecidableEq, Repr

namespace Binary32

/-- The number nearest to a whole number. -/
def ofInt (n : Int) : Binary32 := ⟨.ofNat (BinaryFormat.single.ofInt n)⟩

/-- Whether it is no number. -/
def isNaN (x : Binary32) : Bool := BinaryFormat.single.isNaN x.bits.toNat

/-- Equality of numbers. -/
def sameNumber (x y : Binary32) : Bool :=
  BinaryFormat.single.sameNumber x.bits.toNat y.bits.toNat

end Binary32

namespace Binary64

/-- The number nearest to a whole number. -/
def ofInt (n : Int) : Binary64 := ⟨.ofNat (BinaryFormat.double.ofInt n)⟩

/-- Whether it is no number. -/
def isNaN (x : Binary64) : Bool := BinaryFormat.double.isNaN x.bits.toNat

/-- Equality of numbers. -/
def sameNumber (x y : Binary64) : Bool :=
  BinaryFormat.double.sameNumber x.bits.toNat y.bits.toNat

/-- Whether the number is less than zero. -/
def isBelowZero (x : Binary64) : Bool := BinaryFormat.double.isBelowZero x.bits.toNat

end Binary64

/-- The magnitude in the wide format of a magnitude in the narrow one. An infinity
or NaN keeps its place above the finite numbers; a normal number keeps its digits
under a larger bias; a subnormal one becomes normal. -/
def widenMagnitude (m : Nat) : Nat :=
  let narrow := BinaryFormat.single
  let wide := BinaryFormat.double
  let shift := wide.fractionBits - narrow.fractionBits
  if narrow.infinity ≤ m then wide.infinity + (m - narrow.infinity) * powerOfTwo shift
  else if powerOfTwo narrow.fractionBits ≤ m then
    m * powerOfTwo shift + (wide.bias - narrow.bias) * powerOfTwo wide.fractionBits
  else if m = 0 then 0
  else
    wide.encodeExact m - (narrow.bias + narrow.fractionBits - 1) * powerOfTwo wide.fractionBits

/-- The same number in the wide format. -/
def Binary32.widen (x : Binary32) : Binary64 :=
  let bits := x.bits.toNat
  let sign := if BinaryFormat.single.isNegative bits then BinaryFormat.double.signWeight else 0
  ⟨.ofNat (sign + widenMagnitude (BinaryFormat.single.magnitude bits))⟩

end BestFit
