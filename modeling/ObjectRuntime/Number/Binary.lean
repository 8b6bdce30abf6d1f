import ObjectRuntime.Number.MachineInt
set_option autoImplicit false

/-!
# Binary floating point numbers

Numbers of the two binary interchange formats are kept as their bits.  `unpack` reads the bits as a
sign, a significand and a power of two, and `BinaryFormat.ofRatio` rounds an exact ratio of natural
numbers to the nearest number of a format, a tie going to the even significand.  Every operation
below computes its exact result first and rounds once, so none of them depends on floating point
hardware.
-/

namespace ObjectRuntime

/-- The number of stored significand bits and of exponent bits of a format. -/
structure BinaryFormat where
  fractionBits : Nat
  exponentBits : Nat
  deriving DecidableEq, Repr

/-- What the bits of a number denote; a finite number is `significand · 2 ^ exponent`. -/
inductive Unpacked where
  | nan
  | infinite (negative : Bool)
  | finite (negative : Bool) (significand : Nat) (exponent : Int)
  deriving DecidableEq, Repr

namespace BinaryFormat

/-- The 64-bit format. -/
def double : BinaryFormat := ⟨52, 11⟩

/-- The 32-bit format. -/
def single : BinaryFormat := ⟨23, 8⟩

/-- Exponent of the last significand bit of the smallest numbers. -/
def leastExponent (f : BinaryFormat) : Int :=
  2 - (Nat.pow 2 (f.exponentBits - 1) : Nat) - f.fractionBits

/-- Weight of the leading significand bit, which is not stored. -/
def hiddenBit (f : BinaryFormat) : Nat := Nat.pow 2 f.fractionBits

/-- Bits of positive infinity. -/
def infinityBits (f : BinaryFormat) : Nat := (Nat.pow 2 f.exponentBits - 1) * f.hiddenBit

/-- Weight of the sign bit. -/
def signBit (f : BinaryFormat) : Nat := Nat.pow 2 (f.fractionBits + f.exponentBits)

/-- Bits of the quiet number that is not a number. -/
def nanBits (f : BinaryFormat) : Nat := f.infinityBits + f.hiddenBit / 2

/-- Reads the bits of a number. -/
def unpack (f : BinaryFormat) (bits : Nat) : Unpacked :=
  let negative := bits / f.signBit % 2 == 1
  let magnitude := bits % f.signBit
  let exponent := magnitude / f.hiddenBit
  let fraction := magnitude % f.hiddenBit
  if magnitude > f.infinityBits then .nan
  else if magnitude = f.infinityBits then .infinite negative
  else if exponent = 0 then .finite negative fraction f.leastExponent
  else .finite negative (fraction + f.hiddenBit) (f.leastExponent + (exponent - 1 : Nat))

/-- The quotient rounded to the nearest natural number, a tie going to the even one. -/
def divEven (num den : Nat) : Nat :=
  let q := num / den
  let twice := 2 * (num % den)
  if twice > den ∨ (twice = den ∧ q % 2 = 1) then q + 1 else q

/-- Multiplies a ratio by a power of two. -/
def scaleRatio (num den : Nat) (e : Int) : Nat × Nat :=
  if 0 ≤ e then (num * Nat.pow 2 e.toNat, den) else (num, den * Nat.pow 2 (-e).toNat)

/-- Exponent of the last significand bit kept for a positive ratio: the significand has one bit
more than is stored, unless the number is among the smallest. -/
def lastExponent (f : BinaryFormat) (num den : Nat) : Int :=
  let guess : Int := (Nat.log2 num : Int) - Nat.log2 den - f.fractionBits - 1
  let (n, d) := scaleRatio num den (-guess)
  let e := if n / d ≥ 2 * f.hiddenBit then guess + 1 else guess
  max e f.leastExponent

/-- The magnitude bits of the number nearest to `num / den`.  The significand is added to the
exponent field, so that a carry out of rounding moves to the next exponent by itself. -/
def ofRatio (f : BinaryFormat) (num den : Nat) : Nat :=
  if num = 0 then 0
  else
    let e := f.lastExponent num den
    let (n, d) := scaleRatio num den (-e)
    min ((e - f.leastExponent).toNat * f.hiddenBit + divEven n d) f.infinityBits

/-- Magnitude bits with a sign. -/
def withSign (f : BinaryFormat) (negative : Bool) (magnitude : Nat) : Nat :=
  if negative then f.signBit + magnitude else magnitude

/-- The bits of the number of format `f` nearest to what was unpacked. -/
def pack (f : BinaryFormat) : Unpacked → Nat
  | .nan => f.nanBits
  | .infinite negative => f.withSign negative f.infinityBits
  | .finite negative m e =>
    let (n, d) := scaleRatio m 1 e
    f.withSign negative (f.ofRatio n d)

end BinaryFormat

namespace Unpacked

/-- The number with the opposite sign. -/
def neg : Unpacked → Unpacked
  | .nan => .nan
  | .infinite s => .infinite (!s)
  | .finite s m e => .finite (!s) m e

/-- The magnitude of the number. -/
def abs : Unpacked → Unpacked
  | .nan => .nan
  | .infinite _ => .infinite false
  | .finite _ m e => .finite false m e

/-- The finite number as an integer in units of `2 ^ unit`, for a unit at most its exponent. -/
def inUnits (negative : Bool) (m : Nat) (e unit : Int) : Int :=
  let n : Int := (m * Nat.pow 2 (e - unit).toNat : Nat)
  if negative then -n else n

/-- The exact sum.  A zero sum is positive unless both terms are negative zeros. -/
def add : Unpacked → Unpacked → Unpacked
  | .nan, _ | _, .nan => .nan
  | .infinite s, .infinite t => if s == t then .infinite s else .nan
  | .infinite s, _ => .infinite s
  | _, .infinite t => .infinite t
  | .finite s m e, .finite t n g =>
    let unit := min e g
    let sum := inUnits s m e unit + inUnits t n g unit
    if sum = 0 then .finite (s && t) 0 unit
    else .finite (decide (sum < 0)) sum.natAbs unit

/-- The exact product. -/
def mul : Unpacked → Unpacked → Unpacked
  | .nan, _ | _, .nan => .nan
  | .infinite s, .infinite t => .infinite (s != t)
  | .infinite s, .finite t n _ | .finite t n _, .infinite s =>
    if n = 0 then .nan else .infinite (s != t)
  | .finite s m e, .finite t n g => .finite (s != t) (m * n) (e + g)

/-- Strict order; a number that is not a number is not comparable. -/
def lt : Unpacked → Unpacked → Bool
  | .nan, _ | _, .nan => false
  | .infinite s, .infinite t => s && !t
  | .infinite s, _ => s
  | _, .infinite t => !t
  | .finite s m e, .finite t n g =>
    let unit := min e g
    decide (inUnits s m e unit < inUnits t n g unit)

/-- Numeric equality: zeros of both signs are equal, and nothing equals a number that is not a
number. -/
def eq : Unpacked → Unpacked → Bool
  | .nan, _ | _, .nan => false
  | .infinite s, .infinite t => s == t
  | .infinite _, _ | _, .infinite _ => false
  | .finite s m e, .finite t n g =>
    let unit := min e g
    inUnits s m e unit == inUnits t n g unit

/-- The nearest integer, a half going away from zero, held to the range of 64-bit integers; what is
not a number becomes zero. -/
def roundAwayToI64 : Unpacked → Int
  | .nan => 0
  | .infinite s => if s then IntKind.i64.min else IntKind.i64.max
  | .finite s m e =>
    let magnitude : Nat :=
      if 0 ≤ e then m * Nat.pow 2 e.toNat
      else (m + Nat.pow 2 ((-e).toNat - 1)) / Nat.pow 2 (-e).toNat
    if s then max (-(magnitude : Int)) IntKind.i64.min else min magnitude IntKind.i64.max

end Unpacked

/-- A number of the 64-bit format. -/
structure Double where
  bits : UInt64
  deriving DecidableEq, Repr, Inhabited

/-- A number of the 32-bit format. -/
structure Single where
  bits : UInt32
  deriving DecidableEq, Repr, Inhabited

namespace Double

/-- What the number denotes. -/
def unpack (x : Double) : Unpacked := BinaryFormat.double.unpack x.bits.toNat

/-- The nearest number to what was unpacked. -/
def pack (u : Unpacked) : Double := ⟨UInt64.ofNat (BinaryFormat.double.pack u)⟩

/-- The number is not a number. -/
def isNaN (x : Double) : Bool := x.unpack == .nan

/-- The nearest number to an integer. -/
def ofInt (n : Int) : Double := pack (.finite (decide (n < 0)) n.natAbs 0)

/-- The nearest number to a ratio with a sign. -/
def ofRatio (negative : Bool) (num den : Nat) : Double :=
  ⟨UInt64.ofNat (BinaryFormat.double.withSign negative (BinaryFormat.double.ofRatio num den))⟩

/-- Positive infinity, or negative infinity. -/
def infinity (negative : Bool) : Double := pack (.infinite negative)

/-- The quiet number that is not a number. -/
def nan : Double := pack .nan

/-- The number with the opposite sign. -/
def neg (x : Double) : Double := pack x.unpack.neg

/-- The magnitude. -/
def abs (x : Double) : Double := pack x.unpack.abs

/-- The sum, rounded to nearest. -/
def add (x y : Double) : Double := pack (x.unpack.add y.unpack)

/-- The difference, rounded to nearest. -/
def sub (x y : Double) : Double := pack (x.unpack.add y.unpack.neg)

/-- The product, rounded to nearest. -/
def mul (x y : Double) : Double := pack (x.unpack.mul y.unpack)

/-- The quotient, rounded to nearest. -/
def div (x y : Double) : Double :=
  match x.unpack, y.unpack with
  | .nan, _ | _, .nan => nan
  | .infinite _, .infinite _ => nan
  | .infinite s, .finite t _ _ => infinity (s != t)
  | .finite s _ _, .infinite t => pack (.finite (s != t) 0 0)
  | .finite s m e, .finite t n g =>
    if n = 0 then if m = 0 then nan else infinity (s != t)
    else
      let (num, den) := BinaryFormat.scaleRatio m n (e - g)
      ofRatio (s != t) num den

/-- Strict order. -/
def lt (x y : Double) : Bool := x.unpack.lt y.unpack

/-- Numeric equality. -/
def eq (x y : Double) : Bool := x.unpack.eq y.unpack

/-- Order or numeric equality. -/
def le (x y : Double) : Bool := x.lt y || x.eq y

/-- The nearest integer, a half going away from zero, held to the range of 64-bit integers. -/
def roundAwayToI64 (x : Double) : Int := x.unpack.roundAwayToI64

end Double

/-- A number of the 64-bit format rounded to the 32-bit format.  A number that is not a number
keeps its sign and the leading bits of its payload, and becomes quiet. -/
def Double.toSingle (x : Double) : Single :=
  if x.isNaN then
    let n := x.bits.toNat ||| BinaryFormat.double.hiddenBit / 2
    let payload := (n >>> 29) % BinaryFormat.single.hiddenBit
    ⟨UInt32.ofNat ((n >>> 63) <<< 31 + BinaryFormat.single.infinityBits + payload)⟩
  else ⟨UInt32.ofNat (BinaryFormat.single.pack x.unpack)⟩

namespace Single

/-- What the number denotes. -/
def unpack (x : Single) : Unpacked := BinaryFormat.single.unpack x.bits.toNat

/-- The number is not a number. -/
def isNaN (x : Single) : Bool := x.unpack == .nan

/-- The same number in the 64-bit format.  A number that is not a number keeps its sign and
payload, and becomes quiet. -/
def toDouble (x : Single) : Double :=
  if x.isNaN then
    let n := x.bits.toNat ||| BinaryFormat.single.hiddenBit / 2
    let payload := (n % BinaryFormat.single.hiddenBit) <<< 29
    ⟨UInt64.ofNat ((n >>> 31) <<< 63 + BinaryFormat.double.infinityBits + payload)⟩
  else Double.pack x.unpack

end Single

end ObjectRuntime
