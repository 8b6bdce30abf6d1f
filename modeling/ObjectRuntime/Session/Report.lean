import ObjectRuntime.Session.View
set_option autoImplicit false

/-!
# Reports

A report is what a step of a session answers: a number, a text, the view of a value, or a list or
record of such answers.
-/

namespace ObjectRuntime

/-- What a step of a session answers. -/
inductive Report where
  | nothing
  | flag (b : Bool)
  | number (n : Int)
  | word (w : UInt64)
  | double (x : Double)
  | single (x : Single)
  | text (s : String)
  | bytes (b : Bytes)
  | value (v : ValueView)
  | list (items : List Report)
  | record (facts : List (String × Report))
  deriving Inhabited

namespace Report

variable {α : Type}

/-- A natural number. -/
def count (n : Nat) : Report := .number n

/-- A text that may hold addresses, which are hidden. -/
def shown (s : String) : Report := .text (AddressText.hide s)

/-- A list of numbers. -/
def numbers (ns : List Int) : Report := .list (ns.map .number)

/-- A list of texts. -/
def texts (ss : List String) : Report := .list (ss.map .text)

/-- An answer that may be missing. -/
def ofOption (f : α → Report) : Option α → Report
  | some a => f a
  | none => .nothing

/-- The outcome of a comparison: less, equal or greater. -/
def order : Ordering → Report
  | .lt => .number (-1)
  | .eq => .number 0
  | .gt => .number 1

/-- The numbers of a data type. -/
def dataType (d : DataType) : Report :=
  .list [.count d.code.toNat, .count d.bits.toNat, .count d.lanes.toNat]

/-- The numbers of a device. -/
def device (d : RawDevice) : Report := .list [.count d.kind.toNat, .number d.unit.val]

/-- The content of a box. -/
def box : BoxContent → Report
  | .int n => .number n.val
  | .float x => .double x
  | .bool b => .flag b

/-- An element of a tensor. -/
def element : (e : ElementType) → e.Carrier → Report
  | .i8, n | .i16, n | .i32, n | .i64, n | .u8, n | .u16, n | .u32, n | .u64, n => .number n.val
  | .f32, x => .single x
  | .f64, x => .double x
  | .bool, b => .flag b

end Report

/-- The message of a fault as it is shown. -/
def Fault.shown (f : Fault) : String := AddressText.hide f.message

/-! ## Data types and devices -/

namespace ElementType

/-- The element types with their names. -/
def named : List (String × ElementType) :=
  [("i8", .i8), ("i16", .i16), ("i32", .i32), ("i64", .i64), ("u8", .u8), ("u16", .u16),
    ("u32", .u32), ("u64", .u64), ("f32", .f32), ("f64", .f64), ("bool", .bool)]

end ElementType

/-- All that can be asked of a data type. -/
def DataType.report (d : DataType) : Report :=
  .record [
    ("dtype", .dataType d),
    ("text", .text d.toText),
    ("itemsize", .count d.itemSize),
    ("is_bool", .flag d.isBool),
    ("is_handle", .flag d.isHandle),
    ("is", .texts ((ElementType.named.filter fun (_, e) => d.isElement e).map (·.1))),
    ("back", .flag (CellContent.toDataType (CellContent.ofDataType d) == d)),
    ("sum", .count (d.code.toNat + d.bits.toNat + d.lanes.toNat))]

/-- All that can be asked of a device. -/
def Device.report (d : Device) : Report :=
  .record [
    ("text", .text d.toText),
    ("type", .text d.kind.name),
    ("id", .number d.unit.val),
    ("is_cpu", .flag d.isCpu),
    ("dl", .device d.toRaw)]

/-- The eight bytes of a cell read as a number of a type. -/
def CellContent.report (c : CellContent) : ValueType → Report
  | .int k => .number (c.toInt k).val
  | .f32 => .single c.toDouble.toSingle
  | .f64 => .double c.toDouble
  | .bool => .flag c.toBool
  | _ => .text c.describe

/-- What is known of a type in the table. -/
def TypeInfo.report (info : TypeInfo) : Report :=
  .record [
    ("index", .count info.index),
    ("parent", .count info.parent),
    ("slots", .count info.slots),
    ("allocated", .count info.allocated),
    ("overflow", .flag info.slotsCanOverflow),
    ("name", .text info.key),
    ("hash", .word info.keyHash)]

/-- The counters of a host. -/
def Host.report (h : CountingHost) : Report :=
  .record [
    ("locks", .number h.depth),
    ("max_locks", .number h.maxDepth),
    ("locked_checks", .count h.lockedChecks),
    ("refs", .number h.references)]

end ObjectRuntime
