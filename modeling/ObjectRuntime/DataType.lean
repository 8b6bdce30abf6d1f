import ObjectRuntime.Number.MachineInt
import ObjectRuntime.Text.CharClass
set_option autoImplicit false

/-!
# Element data types

A data type names a kind of number, its width in bits and a number of lanes.  Its text is the name
of the kind, the width, and the number of lanes after an `x` if there are several; the one-bit
unsigned type is written `bool`.
-/

namespace ObjectRuntime

/-- The type of the elements of a tensor. -/
structure DataType where
  code : UInt8
  bits : UInt8
  lanes : UInt16
  deriving DecidableEq, Repr, Inhabited

/-- The types of single numbers that have a data type of their own. -/
inductive ElementType where
  | i8 | i16 | i32 | i64 | u8 | u16 | u32 | u64 | f32 | f64 | bool
  deriving DecidableEq, Repr

namespace DataType

/-! ## Kinds and constructors -/

/-- Code of signed integers. -/
def intCode : UInt8 := 0
/-- Code of unsigned integers. -/
def uintCode : UInt8 := 1
/-- Code of floating point numbers. -/
def floatCode : UInt8 := 2
/-- Code of opaque handles. -/
def handleCode : UInt8 := 3
/-- Code of brain floating point numbers. -/
def bfloatCode : UInt8 := 4

/-- Signed integers. -/
def int (bits : UInt8) (lanes : UInt16) : DataType := ⟨intCode, bits, lanes⟩
/-- Unsigned integers. -/
def uint (bits : UInt8) (lanes : UInt16) : DataType := ⟨uintCode, bits, lanes⟩
/-- Floating point numbers. -/
def float (bits : UInt8) (lanes : UInt16) : DataType := ⟨floatCode, bits, lanes⟩
/-- Single floating point numbers of 32 bits. -/
def float32 : DataType := float 32 1
/-- Truth values. -/
def bool : DataType := uint 1 1
/-- Opaque handles. -/
def handle : DataType := ⟨handleCode, 64, 1⟩

/-- The elements are one-bit unsigned numbers. -/
def isBool (d : DataType) : Bool := d.code == uintCode && d.bits == 1

/-- The elements are opaque handles. -/
def isHandle (d : DataType) : Bool := d.code == handleCode

/-- Number of bits of an element with all its lanes. -/
def totalBits (d : DataType) : Nat := d.bits.toNat * d.lanes.toNat

/-- Number of bytes of an element, rounded up. -/
def itemSize (d : DataType) : Nat := (d.totalBits + 7) / 8

/-- Order of the fields: code, then bits, then lanes. -/
def compare (a b : DataType) : Ordering :=
  (Ord.compare a.code b.code).then ((Ord.compare a.bits b.bits).then (Ord.compare a.lanes b.lanes))

/-! ## Data types of single numbers -/

/-- The data type of a single number. -/
def ofElement : ElementType → DataType
  | .i8 => int 8 1 | .i16 => int 16 1 | .i32 => int 32 1 | .i64 => int 64 1
  | .u8 => uint 8 1 | .u16 => uint 16 1 | .u32 => uint 32 1 | .u64 => uint 64 1
  | .f32 => float 32 1 | .f64 => float 64 1 | .bool => bool

/-- The data type is that of single numbers of the given type. -/
def isElement (d : DataType) (t : ElementType) : Bool := d == ofElement t

/-! ## Texts -/

/-- Why a text is not a data type. -/
inductive ParseError where
  | invalidNumber (cause : ParseIntError)
  | missing
  | unknownKind (name : String)
  deriving DecidableEq, Repr

/-- The wording of the cause. -/
def ParseError.message : ParseError → String
  | .invalidNumber cause => "invalid number: " ++ cause.message
  | .missing => "missing data type specifier (e.g., int32, float64)"
  | .unknownKind name => "unknown type: " ++ name

/-- The name of a kind of number. -/
def kindName (code : UInt8) : String :=
  if code = intCode then "int"
  else if code = uintCode then "uint"
  else if code = floatCode then "float"
  else if code = bfloatCode then "bfloat"
  else if code = handleCode then "handle"
  else "unknown"

/-- The code of a kind of number. -/
def kindCode? (name : String) : Option UInt8 :=
  if name = "int" then some intCode
  else if name = "uint" then some uintCode
  else if name = "float" then some floatCode
  else if name = "bfloat" then some bfloatCode
  else if name = "handle" then some handleCode
  else none

/-- The text of a data type. -/
def toText (d : DataType) : String :=
  if d.isBool && d.lanes == 1 then "bool"
  else
    let lanes := if d.lanes > 1 then "x" ++ toString d.lanes.toNat else ""
    kindName d.code ++ toString d.bits.toNat ++ lanes

instance : ToString DataType := ⟨toText⟩

/-- Reads a machine number inside a data type. -/
def parseNumber (k : IntKind) (cs : List Char) : Except ParseError Nat :=
  match k.parseChars cs with
  | .ok n => .ok n.toNat
  | .error cause => .error (.invalidNumber cause)

/-- The part of a text before the first `x`, and the part between it and the next one. -/
def splitLanes (cs : List Char) : List Char × Option (List Char) :=
  let (typ, rest) := cs.span (· != 'x')
  (typ, match rest with
    | [] => none
    | _ :: rest => some (rest.takeWhile (· != 'x')))

/-- Reads a text: a kind of number, the bits from the first character with a numeric value on, and
the lanes behind an `x`.  The lanes are read first. -/
def parseChars (cs : List Char) : Except ParseError DataType := do
  let (typ, lanesText) := splitLanes cs
  let lanes ← match lanesText with
    | some text => parseNumber .u16 text
    | none => .ok 1
  let (name, bitsText) := typ.span (fun c => !CharClass.isNumeric c)
  let bits ←
    if bitsText.isEmpty then .ok (if String.ofList name = "handle" then 64 else 32)
    else parseNumber .u8 bitsText
  match kindCode? (String.ofList name) with
  | some code => .ok ⟨code, UInt8.ofNat bits, UInt16.ofNat lanes⟩
  | none => .error (.unknownKind (String.ofList name))

/-- Reads the text of a data type. -/
def parse (s : String) : Except ParseError DataType :=
  if s = "bool" then .ok bool
  else if s = "" then .error .missing
  else parseChars s.toList

end DataType

end ObjectRuntime
