import ObjectRuntime.Object.Class
import ObjectRuntime.Object.Heap
set_option autoImplicit false

/-!
# Types of references and values

A `RefType` is a static type of references: a named object class, or an array or map with the types
of what it holds.  A `ValueType` is a type that a value converts to or from, and
`ValueType.Carrier` is the Lean type of its members.
-/

namespace ObjectRuntime

/-- Static types of references.  `name` is the name of the reference type, `cls` the class of the
objects it refers to. -/
inductive RefType where
  | named (name : String) (cls : ObjectClass)
  | array (elem : RefType)
  | map (key value : RefType)
  deriving DecidableEq, Repr

namespace RefType

/-- References to any object. -/
def object : RefType := .named "ObjectRef" .root
/-- References to modules. -/
def module : RefType := .named "Module" .module
/-- References to tensors. -/
def tensor : RefType := .named "NDArray" .tensor
/-- References to strings. -/
def string : RefType := .named "String" .string
/-- References to tuples of extents. -/
def shapeTuple : RefType := .named "ShapeTuple" .shapeTuple
/-- References to functions. -/
def function : RefType := .named "Function" .function
/-- References to boxed integers. -/
def boxInt : RefType := .named "Int" .boxInt
/-- References to boxed floating point numbers. -/
def boxFloat : RefType := .named "Float" .boxFloat
/-- References to boxed truth values. -/
def boxBool : RefType := .named "Bool" .boxBool

/-- The class of the objects referred to. -/
def cls : RefType → ObjectClass
  | .named _ cls => cls
  | .array _ => .array
  | .map _ _ => .map

/-- The name of the type in signatures. -/
def name : RefType → String
  | .named name _ => name
  | .array elem => "Array<" ++ elem.name ++ ">"
  | .map key value => "Map<" ++ key.name ++ ", " ++ value.name ++ ">"

/-- The name of the type in mismatches: keys of classes, and what containers hold. -/
def typeName : RefType → String
  | .named _ cls => cls.key
  | .array elem => "Array[" ++ elem.typeName ++ "]"
  | .map key value => "Map[" ++ key.typeName ++ ", " ++ value.typeName ++ "]"

end RefType

/-- Types of plain values and references. -/
inductive ValueType where
  | int (k : IntKind)
  | f32
  | f64
  | bool
  | text
  | bytes
  | dataType
  | device
  | rawDevice
  | handle
  | tensorHandle
  | unit
  | any
  | ref (r : RefType)
  | option (t : ValueType)
  | variant (first second : ValueType)
  deriving DecidableEq, Repr

namespace ValueType

/-- The members of a type.  References may refer to nothing. -/
abbrev Carrier : ValueType → Type
  | .int k => MachineInt k
  | .f32 => Single
  | .f64 => Double
  | .bool => Bool
  | .text => String
  | .bytes => Bytes
  | .dataType => DataType
  | .device => Device
  | .rawDevice => RawDevice
  | .handle => UInt64
  | .tensorHandle => UInt64
  | .unit => Unit
  | .any => Value
  | .ref _ => Ref
  | .option t => Option t.Carrier
  | .variant a b => Sum a.Carrier b.Carrier

/-- The name of the type in signatures. -/
def name : ValueType → String
  | .int k => k.name
  | .f32 => "f32"
  | .f64 => "f64"
  | .bool => "bool"
  | .text => "String"
  | .bytes => "Vec<u8>"
  | .dataType => "DataType"
  | .device => "Device"
  | .rawDevice => "DLDevice"
  | .handle => "*mut c_void"
  | .tensorHandle => "*mut DLTensor"
  | .unit => "()"
  | .any => "RetValue"
  | .ref r => r.name
  | .option t => "Option<" ++ t.name ++ ">"
  | .variant a b => "Variant<" ++ a.name ++ ", " ++ b.name ++ ">"

/-- The objects to which a member refers, with repetitions. -/
def references : (t : ValueType) → t.Carrier → List ObjId
  | .any, v => v.object?.toList
  | .ref _, r => r.toList
  | .option t, x => (x.map t.references).getD []
  | .variant a _, .inl x => a.references x
  | .variant _ b, .inr x => b.references x
  | .int _, _ | .f32, _ | .f64, _ | .bool, _ | .text, _ | .bytes, _ | .dataType, _ | .device, _
  | .rawDevice, _ | .handle, _ | .tensorHandle, _ | .unit, _ => []

/-- Nothing is converted to a member of the type. -/
def acceptsNull : ValueType → Bool
  | .handle | .unit | .any | .ref _ | .option _ => true
  | .variant a b => a.acceptsNull || b.acceptsNull
  | _ => false

/-- A member of the type as the value of a field, whose references stay references. -/
def fieldValue : (t : ValueType) → t.Carrier → Value
  | .int _, n => .int (MachineInt.wrap .i64 n.val)
  | .f32, x => .float x.toDouble
  | .f64, x => .float x
  | .bool, b => .bool b
  | .text, s => .text s
  | .bytes, b => .bytes b
  | .dataType, d => .dataType d
  | .device, d => .device d.toRaw
  | .rawDevice, d => .device d
  | .handle, address => .handle address
  | .tensorHandle, address => .tensorHandle address
  | .unit, _ => .null
  | .any, v => v.asResult
  | .ref _, r => .ofRef .object r
  | .option _, none => .null
  | .option t, some x => t.fieldValue x
  | .variant a _, .inl x => a.fieldValue x
  | .variant _ b, .inr x => b.fieldValue x

end ValueType

end ObjectRuntime
