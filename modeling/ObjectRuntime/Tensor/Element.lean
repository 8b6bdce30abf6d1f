import ObjectRuntime.DataType
import ObjectRuntime.Number.Binary
import ObjectRuntime.Text.Utf8
set_option autoImplicit false

/-!
# Elements of tensors

The numbers that a tensor may be read or written as, and their bytes, the least significant first.
-/

namespace ObjectRuntime.ElementType

/-- The machine type of whole numbers. -/
def intKind? : ElementType → Option IntKind
  | .i8 => some .i8 | .i16 => some .i16 | .i32 => some .i32 | .i64 => some .i64
  | .u8 => some .u8 | .u16 => some .u16 | .u32 => some .u32 | .u64 => some .u64
  | .f32 | .f64 | .bool => none

/-- The numbers of an element type. -/
abbrev Carrier : ElementType → Type
  | .i8 => MachineInt .i8 | .i16 => MachineInt .i16
  | .i32 => MachineInt .i32 | .i64 => MachineInt .i64
  | .u8 => MachineInt .u8 | .u16 => MachineInt .u16
  | .u32 => MachineInt .u32 | .u64 => MachineInt .u64
  | .f32 => Single | .f64 => Double | .bool => Bool

/-- Number of bytes of an element. -/
def size : ElementType → Nat
  | .i8 | .u8 | .bool => 1
  | .i16 | .u16 => 2
  | .i32 | .u32 | .f32 => 4
  | .i64 | .u64 | .f64 => 8

/-- The bits of an element as a natural number. -/
def toBits : (t : ElementType) → t.Carrier → Nat
  | .i8, n | .i16, n | .i32, n | .i64, n | .u8, n | .u16, n | .u32, n | .u64, n => n.toWord.toNat
  | .f32, x => x.bits.toNat
  | .f64, x => x.bits.toNat
  | .bool, b => b.toNat

/-- The element with the given bits. -/
def ofBits : (t : ElementType) → Nat → t.Carrier
  | .i8, n | .i16, n | .i32, n | .i64, n | .u8, n | .u16, n | .u32, n | .u64, n =>
    MachineInt.wrap _ n
  | .f32, n => ⟨UInt32.ofNat n⟩
  | .f64, n => ⟨UInt64.ofNat n⟩
  | .bool, n => n % 2 = 1

/-- The bytes of elements. -/
def toBytes (t : ElementType) (xs : List t.Carrier) : Bytes :=
  xs.flatMap fun x => Bytes.ofNat t.size (t.toBits x)

/-- Cuts bytes into pieces of a positive size; a shorter rest is dropped. -/
def chunks (size : Nat) : Nat → Bytes → List Bytes
  | 0, _ => []
  | count + 1, bytes => bytes.take size :: chunks size count (bytes.drop size)

/-- The elements with the given bytes. -/
def ofBytes (t : ElementType) (bytes : Bytes) : List t.Carrier :=
  (chunks t.size (bytes.length / t.size) bytes).map fun b => t.ofBits b.toNat

end ObjectRuntime.ElementType
