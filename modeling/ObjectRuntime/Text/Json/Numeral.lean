import ObjectRuntime.Text.Json.Defect
set_option autoImplicit false

/-!
# Numbers in JSON texts

A number is an integer if it is written as one and fits into 64 bits; any other number is read as a
double, from as many leading digits as fit into 64 bits and a power of ten.
-/

namespace ObjectRuntime.Json

/-- Reads the beginning of a text and hands on the rest. -/
abbrev Step (α : Type) : Type := List Char → Except Stop (α × List Char)

/-- A written number: the digits before the point, those behind it if there is one, and the sign
and the digits of the exponent if there is one. -/
structure Numeral where
  negative : Bool
  whole : List Char
  fraction : Option (List Char)
  exponent : Option (Bool × List Char)
  deriving Repr

/-- A decimal digit. -/
def isDigit (c : Char) : Bool := '0' ≤ c && c ≤ '9'

/-- Reads one digit or more.  `atEnd` is what is wrong if the text ends before them. -/
def digits (atEnd : Cause) : Step (List Char)
  | [] => .error ⟨atEnd, 0⟩
  | c :: rest =>
    if isDigit c then .ok ((c :: rest).span isDigit)
    else .error (Stop.after .invalidNumber (c :: rest))

/-- Reads the digits before the point, where a zero stands alone. -/
def wholeDigits (atEnd : Cause) : Step (List Char)
  | '0' :: rest =>
    match rest with
    | c :: _ =>
      if isDigit c then .error (Stop.after .invalidNumber rest) else .ok (['0'], rest)
    | [] => .ok (['0'], [])
  | cs => digits atEnd cs

/-- Reads a point and the digits behind it, if there is a point. -/
def fraction (atEnd : Cause) : Step (Option (List Char))
  | '.' :: rest => (digits atEnd rest).map fun (ds, rest) => (some ds, rest)
  | cs => .ok (none, cs)

/-- Reads an exponent, if there is one. -/
def exponent (atEnd : Cause) (cs : List Char) :
    Except Stop (Option (Bool × List Char) × List Char) :=
  let behind (negative : Bool) (cs : List Char) :=
    (digits atEnd cs).map fun (ds, rest) => (some (negative, ds), rest)
  let signed (cs : List Char) := match cs with
    | '+' :: rest => behind false rest
    | '-' :: rest => behind true rest
    | cs => behind false cs
  match cs with
  | 'e' :: rest | 'E' :: rest => signed rest
  | cs => .ok (none, cs)

/-- Reads a number. -/
def numeral (atEnd : Cause) (cs : List Char) : Except Stop (Numeral × List Char) := do
  let (negative, rest) := match cs with
    | '-' :: rest => (true, rest)
    | cs => (false, cs)
  let (whole, rest) ← wholeDigits atEnd rest
  let (fraction, rest) ← fraction atEnd rest
  let (exponent, rest) ← exponent atEnd rest
  return (⟨negative, whole, fraction, exponent⟩, rest)

namespace Numeral

/-- Appends digits to a number as long as it stays within a limit, and gives the other digits. -/
def absorb (limit : Nat) : Nat → List Char → Nat × List Char
  | n, [] => (n, [])
  | n, c :: rest =>
    let m := n * 10 + (c.toNat - '0'.toNat)
    if m ≤ limit then absorb limit m rest else (n, c :: rest)

/-- The greatest number that is kept of the digits. -/
def maxSignificand : Nat := UInt64.size - 1

/-- The greatest exponent that is kept. -/
def maxExponent : Nat := IntKind.i32.max.toNat

/-- The greatest power of ten of the 64-bit format. -/
def maxPower : Nat := 308

/-- The power of ten with a natural exponent. -/
def powTen (e : Nat) : Double := Decimal.toDouble false 1 e

/-- Multiplies a number by a power of ten, in steps that the 64-bit format can hold.  There is no
answer if the product is too large. -/
def scale (x : Double) (e : Int) : Option Double :=
  if x.eq (Double.ofInt 0) then some x
  else if e < -maxPower then scale (x.div (powTen maxPower)) (e + maxPower)
  else if e < 0 then some (x.div (powTen (-e).toNat))
  else if e ≤ maxPower then
    let y := x.mul (powTen e.toNat)
    if y.eq (Double.infinity false) then none else some y
  else none
termination_by e.natAbs
decreasing_by simp only [maxPower] at *; omega

/-- The double that the digits and the exponent denote, or the number of digits behind the place
where it turns out to be too large. -/
def toDecimal (x : Numeral) (significand : Nat) (dropped : Nat) : Except Nat Double :=
  let ds := x.fraction.getD []
  let (significand, beyond) := absorb maxSignificand significand ds
  let power : Int := dropped - ((ds.length - beyond.length : Nat) : Int)
  let magnitude : Except Nat Double := match x.exponent with
    | none => (scale (Double.ofInt significand) power).elim (.error 0) .ok
    | some (negative, es) =>
      match absorb maxExponent 0 es with
      | (e, []) =>
        let power := if negative then power - e else power + e
        (scale (Double.ofInt significand) power).elim (.error 0) .ok
      | (_, _ :: unread) =>
        if significand = 0 ∨ negative then .ok (Double.ofInt 0) else .error unread.length
  magnitude.map fun y => if x.negative then y.neg else y

/-- The number that is written. -/
def value (x : Numeral) : Except Nat Found :=
  match absorb maxSignificand 0 x.whole, x.fraction, x.exponent with
  | (n, []), none, none =>
    if !x.negative then .ok (.integer n)
    else if n = 0 ∨ IntKind.i64.min > -n then .ok (.decimal (Double.ofInt n).neg)
    else .ok (.integer (-n))
  | (n, beyond), _, _ => (x.toDecimal n beyond.length).map .decimal

end Numeral

/-- Reads a number and tells what it denotes. -/
def number (cs : List Char) : Except Stop (Found × List Char) := do
  let (x, rest) ← numeral .endOfValue cs
  match x.value with
  | .ok found => return (found, rest)
  | .error unread => .error ⟨.numberTooLarge, byteCount rest + unread⟩

end ObjectRuntime.Json
