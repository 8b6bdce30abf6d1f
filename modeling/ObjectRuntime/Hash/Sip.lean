import ObjectRuntime.Text.Utf8
set_option autoImplicit false

/-!
# Hashing of bytes

SipHash with one compression round, three finalisation rounds and the zero key, over a list of
bytes, and the bytes that texts, numbers and slices feed into it.
-/

namespace ObjectRuntime.Sip

/-- The four words of the hash state. -/
structure State where
  v0 : UInt64
  v1 : UInt64
  v2 : UInt64
  v3 : UInt64

/-- Rotates a word to the left. -/
def rotate (x : UInt64) (n : UInt64) : UInt64 := (x <<< n) ||| (x >>> (64 - n))

/-- The state before any input, for the zero key. -/
def start : State :=
  ⟨0x736f6d6570736575, 0x646f72616e646f6d, 0x6c7967656e657261, 0x7465646279746573⟩

/-- One round. -/
def round (s : State) : State :=
  let v0 := s.v0 + s.v1
  let v2 := s.v2 + s.v3
  let v1 := rotate s.v1 13 ^^^ v0
  let v3 := rotate s.v3 16 ^^^ v2
  let v0 := rotate v0 32
  let v2' := v2 + v1
  let v0' := v0 + v3
  let v1' := rotate v1 17 ^^^ v2'
  let v3' := rotate v3 21 ^^^ v0'
  ⟨v0', v1', rotate v2' 32, v3'⟩

/-- Takes in one word. -/
def absorb (s : State) (m : UInt64) : State :=
  let s := round { s with v3 := s.v3 ^^^ m }
  { s with v0 := s.v0 ^^^ m }

/-- Takes in eight bytes at a time; the last word holds the rest and the low byte of the length. -/
def absorbAll (length : Nat) (s : State) : Bytes → State
  | a :: b :: c :: d :: e :: f :: g :: h :: rest =>
    absorbAll length (absorb s (UInt64.ofNat (Bytes.toNat [a, b, c, d, e, f, g, h]))) rest
  | rest =>
    absorb s (UInt64.ofNat (Bytes.toNat rest + length % 256 * 0x100000000000000))

/-- The hash of the bytes. -/
def hash (bytes : Bytes) : UInt64 :=
  let s := absorbAll bytes.length start bytes
  let s := { s with v2 := s.v2 ^^^ 0xff }
  let s := round (round (round s))
  s.v0 ^^^ s.v1 ^^^ s.v2 ^^^ s.v3

/-! ## What is fed into the hash -/

/-- A text: its bytes and a byte that occurs in no text. -/
def text (s : String) : Bytes := Utf8.encode s ++ [0xff]

/-- A number of `width` bytes, in two's complement. -/
def number (width : Nat) (n : Int) : Bytes := Bytes.ofInt width n

/-- A slice of bytes: the length, then the bytes. -/
def slice (bytes : Bytes) : Bytes := number 8 bytes.length ++ bytes

/-- A slice of 64-bit numbers: the length, then the numbers. -/
def numbers (ns : List Int) : Bytes := number 8 ns.length ++ ns.flatMap (number 8)

/-- The hash of a text. -/
def ofText (s : String) : UInt64 := hash (text s)

end ObjectRuntime.Sip
