import ObjectRuntime.Text.Utf8
set_option autoImplicit false

/-!
# Base 64

Bytes written in the standard alphabet, three bytes in four characters.  The last group is padded,
and a text is accepted only in the form that `encode` writes: padding is required, and the bits
that the padding leaves unused are zero.  `defect` tells what is wrong with any other text.
-/

namespace ObjectRuntime.Base64

/-- The character of a six-bit number. -/
def encodeDigit (n : Nat) : Char :=
  if n < 26 then Char.ofNat (n + 65)
  else if n < 52 then Char.ofNat (n - 26 + 97)
  else if n < 62 then Char.ofNat (n - 52 + 48)
  else if n = 62 then '+'
  else '/'

/-- The six-bit number of a character. -/
def decodeDigit? (c : Char) : Option Nat :=
  if 'A' ≤ c ∧ c ≤ 'Z' then some (c.toNat - 65)
  else if 'a' ≤ c ∧ c ≤ 'z' then some (c.toNat - 97 + 26)
  else if '0' ≤ c ∧ c ≤ '9' then some (c.toNat - 48 + 52)
  else if c = '+' then some 62
  else if c = '/' then some 63
  else none

/-- Writes groups of three bytes. -/
def encodeChars : Bytes → List Char
  | [] => []
  | [a] =>
    let n := a.toNat * 16
    [encodeDigit (n / 64), encodeDigit (n % 64), '=', '=']
  | [a, b] =>
    let n := (a.toNat * 256 + b.toNat) * 4
    [encodeDigit (n / 4096), encodeDigit (n / 64 % 64), encodeDigit (n % 64), '=']
  | a :: b :: c :: rest =>
    let n := (a.toNat * 256 + b.toNat) * 256 + c.toNat
    encodeDigit (n / 262144) :: encodeDigit (n / 4096 % 64) :: encodeDigit (n / 64 % 64)
      :: encodeDigit (n % 64) :: encodeChars rest

/-- The text of some bytes. -/
def encode (bytes : Bytes) : String := String.ofList (encodeChars bytes)

/-- Reads groups of four characters. -/
def decodeChars : List Char → Option Bytes
  | [] => some []
  | [a, b, '=', '='] => do
    let n := (← decodeDigit? a) * 64 + (← decodeDigit? b)
    if n % 16 = 0 then some [UInt8.ofNat (n / 16)] else none
  | [a, b, c, '='] => do
    let n := ((← decodeDigit? a) * 64 + (← decodeDigit? b)) * 64 + (← decodeDigit? c)
    if n % 4 = 0 then some [UInt8.ofNat (n / 1024), UInt8.ofNat (n / 4 % 256)] else none
  | a :: b :: c :: d :: rest => do
    let n := (((← decodeDigit? a) * 64 + (← decodeDigit? b)) * 64 + (← decodeDigit? c)) * 64
      + (← decodeDigit? d)
    let tail ← decodeChars rest
    some (UInt8.ofNat (n / 65536) :: UInt8.ofNat (n / 256 % 256) :: UInt8.ofNat (n % 256) :: tail)
  | _ => none

/-- The bytes written by a text, if it is in canonical form. -/
def decode? (s : String) : Option Bytes := decodeChars s.toList

/-! ## Refused texts -/

/-- Why a text is refused.  Symbols are bytes of the text, and offsets count bytes. -/
inductive Defect where
  | symbol (byte : UInt8) (offset : Nat)
  | digitCount (count : Nat)
  | lastSymbol (byte : UInt8) (offset : Nat)
  | padding
  deriving DecidableEq, Repr

/-- The wording of the defect. -/
def Defect.message : Defect → String
  | .symbol byte offset => s!"Invalid symbol {byte}, offset {offset}."
  | .digitCount count => s!"Invalid input length: {count}"
  | .lastSymbol byte offset => s!"Invalid last symbol {byte}, offset {offset}."
  | .padding => "Invalid padding"

/-- The byte writes a six-bit number. -/
def isDigit (byte : UInt8) : Bool := (decodeDigit? (Char.ofNat byte.toNat)).isSome

/-- The byte that fills the last group up. -/
def pad : UInt8 := 61

/-- What is wrong with the last group, which starts at an offset: a byte that is out of place, a
lone digit, a wrong number of padding bytes, or bits that the padding leaves unused. -/
def groupDefect (start : Nat) (group : Bytes) : Defect :=
  let digits := group.takeWhile isDigit
  let filling := group.dropWhile isDigit
  let stop := start + digits.length
  match filling.head?.filter fun _ => digits.length < 2 || filling.any (· ≠ pad) with
  | some byte => .symbol byte stop
  | none =>
    if digits.length < 2 then .digitCount stop
    else if group.length ≠ 4 then .padding
    else .lastSymbol (digits.getLastD pad) (stop - 1)

/-- What is wrong with a refused text.  A stray byte behind complete groups is told first, then the
first byte that is no digit before the last group, then what is wrong with that. -/
def defect (s : String) : Defect :=
  let bytes := Utf8.encode s
  let start := (bytes.length - 1) / 4 * 4
  let group := bytes.drop start
  let stray := if group.length = 1 then group.find? fun b => !isDigit b && b ≠ pad else none
  match stray, (bytes.take start).dropWhile isDigit with
  | some byte, _ => .symbol byte start
  | none, byte :: rest => .symbol byte (start - rest.length - 1)
  | none, [] => groupDefect start group

end ObjectRuntime.Base64
