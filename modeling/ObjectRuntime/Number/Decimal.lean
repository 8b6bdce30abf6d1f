import ObjectRuntime.Number.Binary
set_option autoImplicit false

/-!
# Decimal texts of floating point numbers

A finite number is written with the fewest significant digits that read back as the same number,
and among those with the digits nearest to it.  `Double.toText` writes them positionally and
prefers the larger of two that are equally near; `Double.toPointedText` writes an exponent where
the number is very large or small and prefers the even one.  The interval of ratios that round to a
number ends half way to its two neighbours; it holds its ends exactly if the significand is even.
A text is read as an exact ratio, which is then rounded once.
-/

namespace ObjectRuntime

/-! ## Writing -/

/-- The numbers that round to a positive number, in common units: `low` and `high` bound the
interval and `num / den` is the number itself. -/
structure RoundingInterval where
  low : Nat
  num : Nat
  high : Nat
  den : Nat
  closed : Bool
  deriving Repr

namespace RoundingInterval

/-- The interval around `m · 2 ^ e`, in quarters of a unit of the last place.  Below a power of two
the neighbour is twice as near, unless the number is among the smallest. -/
def ofParts (f : BinaryFormat) (m : Nat) (e : Int) : RoundingInterval :=
  let below := if m = f.hiddenBit ∧ e > f.leastExponent then 1 else 2
  let scale := Nat.pow 2 (e - 2).toNat
  let den := Nat.pow 2 (2 - e).toNat
  ⟨(4 * m - below) * scale, 4 * m * scale, (4 * m + 2) * scale, den, m % 2 == 0⟩

/-- The ratio `n / d` lies in the interval. -/
def holds (r : RoundingInterval) (n d : Nat) : Bool :=
  let x := n * r.den
  if r.closed then r.low * d ≤ x && x ≤ r.high * d else r.low * d < x && x < r.high * d

end RoundingInterval

/-- A positive decimal number `digits · 10 ^ exponent`. -/
structure Decimal where
  digits : Nat
  exponent : Int
  deriving DecidableEq, Repr

/-- Which of two equally near neighbours on a grid is chosen. -/
inductive TieRule where
  | toEven
  | up
  deriving DecidableEq, Repr

/-- The lower neighbour, at `q` on the grid, is chosen in a tie. -/
def TieRule.keepsLower (tie : TieRule) (q : Nat) : Bool :=
  match tie with
  | .toEven => q % 2 == 0
  | .up => false

namespace Decimal

/-- The power of ten with exponent `e` as a ratio. -/
def powTen (e : Int) : Nat × Nat := (Nat.pow 10 e.toNat, Nat.pow 10 (-e).toNat)

/-- The number of decimal digits of a natural number. -/
def digitCount (n : Nat) : Nat := (Nat.toDigits 10 n).length

/-- The exponent `p` with `10 ^ (p - 1) ≤ num / den < 10 ^ p`, for a positive ratio. -/
def magnitude (num den : Nat) : Int :=
  if den ≤ num then digitCount (num / den)
  else
    let zeros := digitCount (den / num) - 1
    if num * Nat.pow 10 zeros = den then 1 - (zeros : Int) else -(zeros : Int)

/-- The number `q · 10 ^ (p - digits)`, for `q` at most `10 ^ digits`, without the zeros at the end of
that last value, which is the power `10 ^ p`. -/
def onGrid (p : Int) (digits q : Nat) : Decimal :=
  if q = Nat.pow 10 digits then ⟨1, p⟩ else ⟨q, p - digits⟩

/-- The number of `digits` digits in the interval that is nearest to its middle: one of the two
neighbours of the middle on the grid of such numbers. -/
def nearestOn (tie : TieRule) (r : RoundingInterval) (p : Int) (digits : Nat) : Option Decimal :=
  let (n, d) := powTen (p - digits)
  let q := r.num * d / (r.den * n)
  let lowHolds := r.holds (q * n) d
  let highHolds := r.holds ((q + 1) * n) d
  let twiceRest := 2 * (r.num * d % (r.den * n))
  if lowHolds && (!highHolds || twiceRest < r.den * n
      || (twiceRest == r.den * n && tie.keepsLower q)) then some (onGrid p digits q)
  else if highHolds then some (onGrid p digits (q + 1))
  else none

/-- Tries grids of more and more digits; the last one is finer than the interval. -/
def shortestFrom (tie : TieRule) (r : RoundingInterval) (p : Int) (digits : Nat) :
    Nat → Option Decimal
  | 0 => none
  | fuel + 1 =>
    match nearestOn tie r p digits with
    | some d => some d
    | none => shortestFrom tie r p (digits + 1) fuel

/-- The shortest decimal number that rounds to `m · 2 ^ e`, for positive `m`. -/
def shortest (tie : TieRule) (f : BinaryFormat) (m : Nat) (e : Int) : Option Decimal :=
  let r := RoundingInterval.ofParts f m e
  shortestFrom tie r (magnitude r.num r.den) 1 17

/-- Digits without an exponent: zeros are added on the right of a large number and after the point
of a small one. -/
def toPositional (d : Decimal) : String :=
  let ds := Nat.toDigits 10 d.digits
  if 0 ≤ d.exponent then String.ofList (ds ++ List.replicate d.exponent.toNat '0')
  else
    let places := (-d.exponent).toNat
    if places < ds.length then
      String.ofList (ds.take (ds.length - places) ++ '.' :: ds.drop (ds.length - places))
    else String.ofList ('0' :: '.' :: (List.replicate (places - ds.length) '0' ++ ds))

/-- Digits with a point among them.  Numbers from `10 ^ 16` on and below `10 ^ -5` have the point
behind the first digit, unless that is the only one, and an exponent, which always has a sign. -/
def toPointed (d : Decimal) : String :=
  let ds := Nat.toDigits 10 d.digits
  let top := d.exponent + ds.length
  if -5 < top ∧ top ≤ 16 then
    if 0 ≤ d.exponent then d.toPositional ++ ".0" else d.toPositional
  else
    let rest := ds.drop 1
    let fraction := if rest.isEmpty then [] else '.' :: rest
    let mark := if 0 < top then "e+" else "e"
    String.ofList (ds.take 1 ++ fraction) ++ mark ++ toString (top - 1)

end Decimal

/-- How the text of a number is made: the text of zero, the choice among equally near digits, and
the text of any other magnitude. -/
structure DecimalStyle where
  zero : String
  tie : TieRule
  write : Decimal → String

/-- The text of a number in a style. -/
def Double.toTextIn (style : DecimalStyle) (x : Double) : String :=
  match x.unpack with
  | .nan => "NaN"
  | .infinite negative => if negative then "-inf" else "inf"
  | .finite negative m e =>
    let magnitude :=
      if m = 0 then style.zero
      else match Decimal.shortest style.tie BinaryFormat.double m e with
        | some d => style.write d
        | none => style.zero
    if negative then "-" ++ magnitude else magnitude

/-- The text of a number: the shortest digits that read back, never with an exponent. -/
def Double.toText : Double → String := Double.toTextIn ⟨"0", .up, Decimal.toPositional⟩

/-- The text of a number: the shortest digits that read back, with a point or an exponent. -/
def Double.toPointedText : Double → String := Double.toTextIn ⟨"0.0", .toEven, Decimal.toPointed⟩

/-! ## Reading -/

namespace Decimal

/-- The digits at the start of a text and what follows them. -/
def spanDigits (cs : List Char) : List Char × List Char :=
  cs.span fun c => (IntKind.digit? c).isSome

/-- The number written by a list of digits. -/
def ofDigits (ds : List Char) : Nat :=
  ds.foldl (fun n c => n * 10 + (c.toNat - '0'.toNat)) 0

/-- Reads an exponent: a sign and at least one digit, and nothing after them. -/
def readExponent (cs : List Char) : Option Int :=
  let (negative, rest) := match cs with
    | '-' :: rest => (true, rest)
    | '+' :: rest => (false, rest)
    | rest => (false, rest)
  let (ds, tail) := spanDigits rest
  if ds.isEmpty || !tail.isEmpty then none
  else some (if negative then -(ofDigits ds : Int) else ofDigits ds)

/-- Reads digits with an optional point among or around them and an optional exponent. -/
def readUnsigned (cs : List Char) : Option (Nat × Int) := do
  let (whole, rest) := spanDigits cs
  let (fraction, rest) := match rest with
    | '.' :: rest => spanDigits rest
    | rest => ([], rest)
  if whole.isEmpty && fraction.isEmpty then none
  let exponent ← match rest with
    | [] => some 0
    | c :: rest => if c = 'e' ∨ c = 'E' then readExponent rest else none
  some (ofDigits (whole ++ fraction), exponent - fraction.length)

/-- The number nearest to `digits · 10 ^ exponent`.  Beyond the range of the format the answer is
known from the number of digits alone. -/
def toDouble (negative : Bool) (digits : Nat) (exponent : Int) : Double :=
  let top := exponent + digitCount digits
  if digits = 0 ∨ top < -400 then Double.ofRatio negative 0 1
  else if top > 400 then Double.infinity negative
  else
    let (n, d) := powTen exponent
    Double.ofRatio negative (digits * n) d

end Decimal

/-- Reads a decimal text, or one of the names of infinity and of what is not a number in any case,
with an optional sign. -/
def Double.ofText? (s : String) : Option Double :=
  let (negative, rest) := match s.toList with
    | '-' :: rest => (true, rest)
    | '+' :: rest => (false, rest)
    | rest => (false, rest)
  let lower := String.ofList (rest.map Char.toLower)
  if lower = "inf" ∨ lower = "infinity" then some (Double.infinity negative)
  else if lower = "nan" then some (if negative then Double.nan.neg else Double.nan)
  else (Decimal.readUnsigned rest).map fun (digits, exponent) =>
    Decimal.toDouble negative digits exponent

end ObjectRuntime
