import ObjectRuntime.Tensor.Element
import ObjectRuntime.Tensor.Layout
import ObjectRuntime.World
set_option autoImplicit false

/-!
# Tensors and their memory

A tensor owns its memory, borrows that of a foreign producer or shares that of another tensor.
Reading and writing go to the memory itself, so that all tensors over one memory show the same
elements.
-/

namespace ObjectRuntime

namespace Tensor

/-- Alignment of every tensor's first element. -/
def alignment : Nat := 64

/-- Number of elements. -/
def length (t : Tensor) : Except Fault Nat := do
  return (IntKind.usize.wrap (← Layout.elementCount t.shape)).toNat

/-- Number of bytes of the elements, each rounded up to whole bytes. -/
def size (t : Tensor) : Except Fault Nat := do
  return (← checkedOp .usize .mul (← t.length) t.dtype.itemSize).toNat

/-- The device that the tensor is on. -/
def device (t : Tensor) : Device := ⟨.cpu, MachineInt.wrap .usize t.unit.val⟩

/-- The extents as unsigned words. -/
def unsignedShape (t : Tensor) : List Int := t.shape.map IntKind.usize.wrap

/-- No extent is negative. -/
def checkShape (shape : List Int) : Except Error Unit :=
  match shape.find? (· < 0) with
  | some dim => .error (.tensor (.negativeDimension dim))
  | none => .ok ()

/-- The device is the host's own processor. -/
def checkHost (d : RawDevice) : Except Error Unit :=
  if d.kind = DeviceKind.cpu.code then .ok ()
  else
    let shown := match Device.ofRaw d with
      | .ok device => device.toText
      | .error e => e.text
    .error (.tensor (.unsupportedDevice shown))

end Tensor

namespace World

variable {κ : Type}

/-- The tensor that an object is. -/
def tensor? (w : World κ) (id : ObjId) : Option Tensor :=
  match w.payload? id with
  | some (.tensor t) => some t
  | _ => none

/-- Follows shared memory to the tensor that keeps it. -/
def memoryHome (w : World κ) : Nat → ObjId → ObjId
  | 0, id => id
  | fuel + 1, id =>
    match w.tensor? id with
    | some { memory := .sharedWith source, .. } => w.memoryHome fuel source
    | _ => id

/-- The memory of a tensor. -/
def memoryBytes (w : World κ) (id : ObjId) : Bytes :=
  match w.tensor? (w.memoryHome w.heap.cells.size id) with
  | some { memory := .owned data, .. } => data
  | some { memory := .foreign data _, .. } => data
  | _ => []

/-- The bytes of the elements. -/
def tensorBytes (w : World κ) (id : ObjId) (t : Tensor) : Except Fault Bytes := do
  let size ← t.size
  return ((w.memoryBytes id).drop t.byteOffset).take size

end World

/-- Replaces the bytes from a position on. -/
def Bytes.overwrite (memory : Bytes) (start : Nat) (data : Bytes) : Bytes :=
  memory.take start ++ data ++ memory.drop (start + data.length)

namespace Tensor

variable {κ : Type}

/-- The tensor behind a reference, which has to refer to one. -/
def deref (r : Ref) : Run κ (ObjId × Tensor) := do
  match r with
  | none => Run.panic (.nullDereference "NDArray")
  | some id =>
    match (← get).tensor? id with
    | some t => return (id, t)
    | none => Run.panic (.nullDereference "NDArray")

/-- A new tensor of zeros. -/
def zeros (shape : List Int) (dtype : DataType) (device : Device) : Run κ ObjId := do
  Run.ofExcept (checkShape shape)
  let raw := device.toRaw
  Run.ofExcept (checkHost raw)
  let header : Tensor := ⟨shape, dtype, raw.unit, 0, .owned []⟩
  let size ← Run.ofFallible header.size
  let greatest := IntKind.isize.max.toNat
  if max size 1 > greatest - (alignment - 1) then
    Run.fail (.tensor (.sizeMismatch greatest size))
  Run.create .tensor (.tensor { header with memory := .owned (List.replicate size 0) })

/-- Writes into the memory of a tensor. -/
def writeMemory (id : ObjId) (start : Nat) (data : Bytes) : Run κ Unit := do
  let w ← get
  let home := w.memoryHome w.heap.cells.size id
  match w.tensor? home with
  | some t =>
    let memory := match t.memory with
      | .owned old => .owned (Bytes.overwrite old start data)
      | .foreign old deleter => .foreign (Bytes.overwrite old start data) deleter
      | .sharedWith source => .sharedWith source
    Run.modifyHeap (·.setPayload home (.tensor { t with memory }))
  | none => pure ()

/-- Replaces all elements by the given bytes, whose number must match. -/
def fill (id : ObjId) (t : Tensor) (data : Bytes) : Run κ Unit := do
  let size ← Run.ofFallible t.size
  if size ≠ data.length then Run.fail (.tensor (.sizeMismatch size data.length))
  writeMemory id t.byteOffset data

/-- The elements are of the given type. -/
def checkElement (t : Tensor) (e : ElementType) : Except Error Unit :=
  if t.dtype = DataType.ofElement e then .ok ()
  else .error (.tensor (.elementType (DataType.ofElement e) t.dtype))

/-- Replaces all elements. -/
def writeElements (id : ObjId) (t : Tensor) (e : ElementType) (xs : List e.Carrier) :
    Run κ Unit := do
  Run.ofExcept (t.checkElement e)
  fill id t (e.toBytes xs)

/-- All elements in order. -/
def readElements (id : ObjId) (t : Tensor) (e : ElementType) : Run κ (List e.Carrier) := do
  Run.ofExcept (t.checkElement e)
  return e.ofBytes (← Run.ofFallible ((← get).tensorBytes id t))

/-- All elements in order and the extents, of which those that are not zero have to describe a
number of elements that can be addressed. -/
def toArray (id : ObjId) (t : Tensor) (e : ElementType) : Run κ (List Int × List e.Carrier) := do
  let xs ← readElements id t e
  let shape := t.unsignedShape
  let product := (shape.filter (· ≠ 0)).foldl (· * ·) 1
  if product > IntKind.isize.max then Run.fail (.tensor .badShape)
  return (shape, xs)

/-- A new tensor with the elements of an array in logical order. -/
def ofArray (e : ElementType) (shape : List Int) (xs : List e.Carrier) (device : Device) :
    Run κ ObjId := do
  let id ← zeros shape (DataType.ofElement e) device
  Run.releasingOnFault [id] do
    let (_, t) ← deref (some id)
    writeElements id t e xs
  return id

/-- Copies all elements of one tensor into another of the same number of bytes. -/
def copyFrom (target source : ObjId) : Run κ Unit := do
  if target = source then return ()
  let (_, origin) ← deref (some source)
  let data ← Run.ofFallible ((← get).tensorBytes source origin)
  let (_, dest) ← deref (some target)
  fill target dest data

end Tensor

end ObjectRuntime
