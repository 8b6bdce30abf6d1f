import ObjectRuntime.Error
import ObjectRuntime.Number.Decimal
import ObjectRuntime.Text.Utf8
set_option autoImplicit false

/-!
# References and tagged values

A reference names an object or nothing.  A value is what a function takes or returns: a plain
number, text or device, or an object with a tag that tells how it is passed.  Each kind of value has
a type code.
-/

namespace ObjectRuntime

/-- The name of an object; no two objects of a run have the same. -/
structure ObjId where
  index : Nat
  deriving DecidableEq, Repr

/-- A reference to an object, or to nothing. -/
abbrev Ref := Option ObjId

/-- How an object is passed.  A moved object may be taken over by the callee. -/
inductive ObjectTag where
  | object | moved | module | function | tensor
  deriving DecidableEq, Repr

/-- A value that a function takes or returns. -/
inductive Value where
  | null
  | int (n : I64)
  | float (x : Double)
  | bool (b : Bool)
  | dataType (d : DataType)
  | device (d : RawDevice)
  | handle (address : UInt64)
  | tensorHandle (address : UInt64)
  | text (s : String)
  | bytes (b : Bytes)
  | object (tag : ObjectTag) (id : ObjId)
  deriving DecidableEq, Repr

/-! ## Type codes -/

namespace TypeCode

/-- Code of integers. -/
def int : Int := 0
/-- Code under which unsigned integers arrive. -/
def uint : Int := 1
/-- Code of floating point numbers. -/
def float : Int := 2
/-- Code of opaque handles. -/
def handle : Int := 3
/-- Code of nothing. -/
def null : Int := 4
/-- Code of element data types. -/
def dataType : Int := 5
/-- Code of devices. -/
def device : Int := 6
/-- Code of tensor handles. -/
def tensorHandle : Int := 7
/-- Code of objects. -/
def object : Int := 8
/-- Code of modules. -/
def module : Int := 9
/-- Code of functions. -/
def function : Int := 10
/-- Code of texts. -/
def text : Int := 11
/-- Code of bytes. -/
def bytes : Int := 12
/-- Code of tensors that are objects. -/
def tensor : Int := 13
/-- Code of objects that the callee may take over. -/
def moved : Int := 14
/-- Code of truth values. -/
def bool : Int := 15

/-- The name of a type code, which is read as a 32-bit word. -/
def name (code : Int) : String :=
  match (code % UInt32.size).toNat with
  | 0 => "int" | 1 => "uint" | 2 => "float" | 3 => "handle" | 4 => "NULL"
  | 5 => "DLDataType" | 6 => "DLDevice" | 7 => "ArrayHandle" | 8 => "Object"
  | 9 => "ModuleHandle" | 10 => "FunctionHandle" | 11 => "str" | 12 => "bytes"
  | 13 => "NDArrayContainer" | 14 => "ObjectRValueRefArg" | 15 => "bool"
  | _ => "unknown type_code"

end TypeCode

namespace Value

/-- The object that the value carries. -/
def object? : Value → Option ObjId
  | .object _ id => some id
  | _ => none

/-- The value carries nothing. -/
def isNull : Value → Bool
  | .null => true
  | _ => false

/-- The type code of the value. -/
def typeCode : Value → Int
  | .null => TypeCode.null
  | .int _ => TypeCode.int
  | .float _ => TypeCode.float
  | .bool _ => TypeCode.bool
  | .dataType _ => TypeCode.dataType
  | .device _ => TypeCode.device
  | .handle _ => TypeCode.handle
  | .tensorHandle _ => TypeCode.tensorHandle
  | .text _ => TypeCode.text
  | .bytes _ => TypeCode.bytes
  | .object .object _ => TypeCode.object
  | .object .moved _ => TypeCode.moved
  | .object .module _ => TypeCode.module
  | .object .function _ => TypeCode.function
  | .object .tensor _ => TypeCode.tensor

/-- The value as a result: a moved object becomes an ordinary one. -/
def asResult : Value → Value
  | .object .moved id => .object .object id
  | v => v

/-- The object reference of a value as it is stored in a container or a field. -/
def ofRef (tag : ObjectTag) : Ref → Value
  | none => .null
  | some id => .object tag id

end Value

end ObjectRuntime
