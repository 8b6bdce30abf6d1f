set_option autoImplicit false

/-!
# Bytes and texts

Bytes are kept as lists.  `Utf8.encode` gives the bytes of a text and `Utf8.decode?` reads bytes as
a text, or refuses them.
-/

namespace ObjectRuntime

/-- A list of bytes. -/
abbrev Bytes := List UInt8

namespace Utf8

/-- The bytes of a text. -/
def encode (s : String) : Bytes := s.toUTF8.toList

/-- The text whose bytes these are, if there is one. -/
def decode? (bytes : Bytes) : Option String := String.fromUTF8? ⟨bytes.toArray⟩

/-- How many of the bytes behind a leading byte belong to the same character, and the bounds of the
first of them. -/
def shape? (lead : UInt8) : Option (Nat × UInt8 × UInt8) :=
  if 0xc2 ≤ lead ∧ lead ≤ 0xdf then some (1, 0x80, 0xbf)
  else if lead = 0xe0 then some (2, 0xa0, 0xbf)
  else if lead = 0xed then some (2, 0x80, 0x9f)
  else if 0xe1 ≤ lead ∧ lead ≤ 0xef then some (2, 0x80, 0xbf)
  else if lead = 0xf0 then some (3, 0x90, 0xbf)
  else if 0xf1 ≤ lead ∧ lead ≤ 0xf3 then some (3, 0x80, 0xbf)
  else if lead = 0xf4 then some (3, 0x80, 0x8f)
  else none

/-- The number of bytes, at most `count`, that continue a character. -/
def continuation (count : Nat) (low high : UInt8) : Bytes → Nat
  | [] => 0
  | b :: rest =>
    match count with
    | 0 => 0
    | count + 1 =>
      if low ≤ b ∧ b ≤ high then 1 + continuation count 0x80 0xbf rest else 0

/-- Reads bytes as a text within a number of steps.  Bytes that are the beginning of no character
are replaced, each longest beginning of one by a single sign. -/
def lossyWithin : Nat → Bytes → List Char
  | 0, _ => []
  | _, [] => []
  | steps + 1, lead :: rest =>
    if lead < 0x80 then Char.ofNat lead.toNat :: lossyWithin steps rest
    else
      match shape? lead with
      | none => '\ufffd' :: lossyWithin steps rest
      | some (count, low, high) =>
        let used := continuation count low high rest
        let c := ((decode? (lead :: rest.take count)).bind fun s => s.toList.head?).getD '\ufffd'
        (if used = count then c else '\ufffd') :: lossyWithin steps (rest.drop used)

/-- Reads bytes as a text in which what is no text is replaced. -/
def lossy (bytes : Bytes) : String := String.ofList (lossyWithin bytes.length bytes)

end Utf8

/-- The number whose little-endian bytes are given. -/
def Bytes.toNat : Bytes → Nat
  | [] => 0
  | b :: rest => b.toNat + 256 * Bytes.toNat rest

/-- The low bytes of a number, the least significant one first. -/
def Bytes.ofNat : Nat → Nat → Bytes
  | 0, _ => []
  | width + 1, n => UInt8.ofNat (n % 256) :: Bytes.ofNat width (n / 256)

/-- A number of `width` bytes, the least significant first, in two's complement. -/
def Bytes.ofInt (width : Nat) (n : Int) : Bytes :=
  Bytes.ofNat width (n % (Nat.pow 256 width : Nat)).toNat

@[simp] theorem Bytes.length_ofNat (width n : Nat) : (Bytes.ofNat width n).length = width := by
  induction width generalizing n with
  | zero => rfl
  | succ w ih => simp [Bytes.ofNat, ih]

end ObjectRuntime
