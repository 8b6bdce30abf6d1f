import ObjectRuntime.Object.Value
import ObjectRuntime.Text.Quoted
set_option autoImplicit false

/-!
# Cells

Values cross the boundary of the runtime in cells.  A cell has a type code and eight bytes, which
hold a plain value or the address of something: a text that ends at the first zero byte, some
bytes, an object, or a slot from which the callee may take an object.

`Cell.ofValue` fills a cell and `Cell.read` reads one.
-/

namespace ObjectRuntime

/-- What the eight bytes of a cell hold.  The word zero is no address. -/
inductive CellContent where
  | word (bits : UInt64)
  | text (bytes : Bytes)
  | bytes (data : Bytes)
  | object (id : ObjId)
  | slot (index : Nat)
  deriving DecidableEq, Repr

/-- A type code and the bytes to be read by it. -/
structure Cell where
  code : Int
  content : CellContent
  deriving DecidableEq, Repr

namespace CellContent

/-- A number. -/
def ofI64 (n : I64) : CellContent := .word n.toWord

/-- A number of any machine type: it keeps its sign if it has one. -/
def ofInt {k : IntKind} (n : MachineInt k) : CellContent := .word n.toWord

/-- A floating point number. -/
def ofDouble (x : Double) : CellContent := .word x.bits

/-- A truth value. -/
def ofBool (b : Bool) : CellContent := .word (if b then 1 else 0)

/-- Nothing. -/
def zero : CellContent := .word 0

/-- A data type. -/
def ofDataType (d : DataType) : CellContent :=
  .word (UInt64.ofNat (d.code.toNat + 256 * (d.bits.toNat + 256 * d.lanes.toNat)))

/-- A device. -/
def ofDevice (d : RawDevice) : CellContent :=
  .word (UInt64.ofNat (d.kind.toNat + UInt32.size * (d.unit.val % UInt32.size).toNat))

/-- The eight bytes as a word.  The place of what an address refers to is not part of a program's
answer. -/
def bits : CellContent → UInt64
  | .word bits => bits
  | _ => 0

/-- The eight bytes as a number with a sign. -/
def toI64 (c : CellContent) : I64 := MachineInt.wrap .i64 c.bits.toNat

/-- The low bytes as a number of a machine type. -/
def toInt (k : IntKind) (c : CellContent) : MachineInt k := MachineInt.wrap k c.bits.toNat

/-- The eight bytes as a floating point number. -/
def toDouble (c : CellContent) : Double := ⟨c.bits⟩

/-- The eight bytes as a truth value. -/
def toBool (c : CellContent) : Bool := c.bits != 0

/-- The eight bytes for inspection. -/
def describe (c : CellContent) : String := "TVMValue(0x" ++ hexDigits c.bits.toNat ++ ")"

/-- The eight bytes as a data type. -/
def toDataType (c : CellContent) : DataType :=
  let n := c.bits.toNat
  ⟨UInt8.ofNat n, UInt8.ofNat (n / 256), UInt16.ofNat (n / 256 / 256)⟩

/-- The eight bytes as a device. -/
def toDevice (c : CellContent) : RawDevice :=
  let n := c.bits.toNat
  ⟨UInt32.ofNat n, MachineInt.wrap .i32 ((n / UInt32.size : Nat) : Int)⟩

end CellContent

/-- The bytes of a text before the first zero byte. -/
def untilZero (bytes : Bytes) : Bytes := bytes.takeWhile (· ≠ 0)

/-- Reads a text that ends at the first zero byte. -/
def readText (bytes : Bytes) : Except Error String :=
  match Utf8.decode? (untilZero bytes) with
  | some s => .ok s
  | none => .error .notUtf8

/-- The bytes of a text that can be told from its end. -/
def writeText (s : String) : Except Error Bytes :=
  let bytes := Utf8.encode s
  if bytes.contains 0 then .error .embeddedNul else .ok bytes

namespace Cell

/-- The cell of a value.  A moved object goes into the slot with the given index. -/
def ofValue (slot : Nat) (v : Value) : Except Error Cell := do
  let content : CellContent ← match v with
    | .null => pure .zero
    | .int n => pure (.ofI64 n)
    | .float x => pure (.ofDouble x)
    | .bool b => pure (.ofBool b)
    | .dataType d => pure (.ofDataType d)
    | .device d => pure (.ofDevice d)
    | .handle address | .tensorHandle address => pure (.word address)
    | .text s => .text <$> writeText s
    | .bytes b => pure (.bytes b)
    | .object .moved _ => pure (.slot slot)
    | .object _ id => pure (.object id)
  return ⟨v.typeCode, content⟩

/-- The cell of a result, which is not moved. -/
def ofResult (v : Value) : Except Error Cell := ofValue 0 v.asResult

/-- An object behind an address, if there is one. -/
def readObject (tag : ObjectTag) : CellContent → Value
  | .object id => .object tag id
  | _ => .null

/-- Reads a cell.  An object in a slot is read as a moved object. -/
def read (slots : List Ref) (c : Cell) : Except Error Value :=
  let is (code : Int) : Bool := c.code == code
  if is TypeCode.int || is TypeCode.uint then .ok (.int c.content.toI64)
  else if is TypeCode.float then .ok (.float c.content.toDouble)
  else if is TypeCode.bool then .ok (.bool c.content.toBool)
  else if is TypeCode.null then .ok .null
  else if is TypeCode.dataType then .ok (.dataType c.content.toDataType)
  else if is TypeCode.device then .ok (.device c.content.toDevice)
  else if is TypeCode.handle then .ok (.handle c.content.bits)
  else if is TypeCode.tensorHandle then .ok (.tensorHandle c.content.bits)
  else if is TypeCode.object then .ok (readObject .object c.content)
  else if is TypeCode.module then .ok (readObject .module c.content)
  else if is TypeCode.function then .ok (readObject .function c.content)
  else if is TypeCode.tensor then .ok (readObject .tensor c.content)
  else if is TypeCode.moved then
    match c.content with
    | .slot index =>
      match slots[index]?.join with
      | some id => .ok (.object .moved id)
      | none => .ok .null
    | _ => .ok .null
  else if is TypeCode.text then
    match c.content with
    | .text bytes => .text <$> readText bytes
    | _ => .ok .null
  else if is TypeCode.bytes then
    match c.content with
    | .bytes b => .ok (.bytes b)
    | _ => .ok .null
  else .error (.unknownTypeCode c.code)

end Cell

end ObjectRuntime
