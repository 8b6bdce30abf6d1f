import ObjectRuntime.Session.Objects
set_option autoImplicit false

/-!
# Steps on tensors

Tensors are created, read and written, lent and borrowed, and saved in parameter blobs.
-/

namespace ObjectRuntime.Session

variable {α : Type}

/-! ## Inspection -/

/-- All that can be asked of a tensor, which has to be there. -/
def describeTensor (r : Ref) : Act Report := do
  let (id, t) ← ofRun (Tensor.deref r)
  let w ← currentWorld
  let length ← ofFallible t.length
  let size ← ofFallible t.size
  let contiguous ← ofFallible (Layout.isContiguous t.shape none)
  let data ← ofFallible (w.tensorBytes id t)
  return .record [
    ("shape", .numbers t.shape),
    ("shape_usize", .numbers t.unsignedShape),
    ("strides", .nothing),
    ("ndim", .count t.shape.length),
    ("len", .count length),
    ("is_empty", .flag (length == 0)),
    ("size", .count size),
    ("dtype", .text t.dtype.toText),
    ("device", .text t.device.toText),
    ("byte_offset", .count t.byteOffset),
    ("contiguous", .flag contiguous),
    ("data", .bytes data),
    ("debug", .text (w.showTensorRef r)),
    ("aligned", .flag true)]

/-- Shows a new tensor and puts it into its register, or gives it up. -/
def giveTensor (dest : Target) (body : Run SessionCode ObjId) : Act Report := do
  let id ← ofRun body
  let shown ← releasingOnFault [id] (describeTensor (some id))
  keep dest.register (.object .tensor id)
  return shown

/-- Uses a tensor, which has to be there, and gives it up. -/
def withTensor (e : Expr) (body : ObjId → Tensor → Act α) : Act α :=
  withRef .tensor e fun r => do
    let (id, t) ← ofRun (Tensor.deref r)
    body id t

/-- The bytes of the elements. -/
def tensorData (id : ObjId) (t : Tensor) : Act Report := do
  return .bytes (← ofFallible ((← currentWorld).tensorBytes id t))

/-- A reference to no tensor: it is shown, and neither it nor its exports refer to anything. -/
def nullTensor : Act Report := do
  return .list [.text ((← currentWorld).showTensorRef none), .flag true, .flag true, .flag true]

/-- A handle of a tensor refers to it, however it is obtained. -/
def tensorHandles (_ : ObjId) (_ : Tensor) : Act Report := do
  return .list (List.replicate 4 (.flag true))

/-- The number of elements of a layout, whether it is compact, and its size in bytes. -/
def describeLayout (shape : List Int) (strides : Option (List Int)) (dtype : DataType) :
    Act Report := do
  return .record [("n", .number (← ofFallible (Layout.elementCount shape))),
    ("contiguous", .flag (← ofFallible (Layout.isContiguous shape strides))),
    ("size", .count (← ofFallible (Layout.dataSize shape dtype)))]

/-- The layout of an array in memory, whose axes may be reversed. -/
def describeArray (e : ElementType) (shape : List Int) (reversed : Bool) : Act Report := do
  let turn (ns : List Int) : List Int := if reversed then ns.reverse else ns
  let strides := turn (Layout.arrayStrides shape)
  let shape := turn shape
  let dtype := DataType.ofElement e
  return .record [("ndim", .count shape.length), ("dtype", .dataType dtype),
    ("device", .device Device.host.toRaw), ("shape", .numbers shape), ("strides", .numbers strides),
    ("contiguous", .flag (← ofFallible (Layout.isContiguous shape (some strides)))),
    ("size", .count (← ofFallible (Layout.dataSize shape dtype)))]

/-! ## Elements -/

/-- Replaces all bytes. -/
def fillTensor (data : Bytes) (id : ObjId) (t : Tensor) : Act Report := do
  ofRun (Tensor.fill id t data)
  tensorData id t

/-- Replaces all elements. -/
def writeTensor (e : ElementType) (xs : List e.Carrier) (id : ObjId) (t : Tensor) : Act Report := do
  ofRun (Tensor.writeElements id t e xs)
  tensorData id t

/-- All elements. -/
def readTensor (e : ElementType) (id : ObjId) (t : Tensor) : Act Report := do
  return .list ((← ofRun (Tensor.readElements id t e)).map (.element e))

/-- The extents and all elements. -/
def tensorToArray (e : ElementType) (id : ObjId) (t : Tensor) : Act Report := do
  let (shape, xs) ← ofRun (Tensor.toArray id t e)
  return .record [("shape", .numbers shape), ("vals", .list (xs.map (.element e)))]

/-- A new tensor with the elements of an array, whose axes may be reversed first. -/
def tensorOfArray (dest : Target) (e : ElementType) (shape : List Int) (xs : List e.Carrier)
    (reversed : Bool) (device : Device) : Act Report :=
  if reversed then
    giveTensor dest (Tensor.ofArray e shape.reverse (Layout.transposed shape xs) device)
  else giveTensor dest (Tensor.ofArray e shape xs device)

/-- Copies the elements of one tensor into another. -/
def copyElements (source target : Expr) : Act Report :=
  withRef .tensor source fun source => withRef .tensor target fun target => do
    let (source, _) ← ofRun (Tensor.deref source)
    let (target, t) ← ofRun (Tensor.deref target)
    ofRun (Tensor.copyFrom target source)
    tensorData target t

/-! ## Exchange -/

/-- Imports memory of a foreign producer, which may want to be told when it is no longer needed. -/
def importForeign (dest : Target) (m : Option Hook → ManagedTensor) (hasDeleter : Bool) :
    Act Report := do
  let serial ← ofRun Run.freshSerial
  let m := m (if hasDeleter then some (.deleter serial) else none)
  ofFallible m.check
  giveTensor dest m.filledUp.importTensor

/-- Refuses to import nothing. -/
def importNothing (versioned : Bool) : Act Report :=
  fail (.nullHandle (ManagedTensor.handleName versioned))

/-- Exports a tensor and imports it again: the references added to it, whether the new tensor is
over the same memory, and the new tensor. -/
def reimport (dest : Target) (versioned : Bool) (e : Expr) : Act Report :=
  withRef .tensor e fun r => do
    match r with
    | none => importNothing versioned
    | some id =>
      let (_, t) ← ofRun (Tensor.deref r)
      let before ← countOf id
      let m ← ofRun (ManagedTensor.exportTensor id t versioned)
      match ← outcome (ofRun m.importTensor) with
      | .error (.panic cause) => throw (.panic cause)
      | .error (.error cause) =>
        ofRun m.giveBack
        fail cause
      | .ok fresh =>
        let added := (← countOf id) - before
        let w ← currentWorld
        let home := w.memoryHome w.heap.cells.size
        let aliased := home fresh == home id
        return .record [("extra_refs", .count added), ("alias", .flag aliased),
          ("info", ← giveTensor dest (pure fresh))]

/-- How often hooks of deleters have run. -/
def deletersRun : Act Report := do
  let isDeleter (h : Hook) : Bool := match h with
    | .deleter _ => true
    | .finalizer _ => false
  return .count ((← currentWorld).heap.hookCount isDeleter)

/-! ## Blobs -/

/-- The bytes of a tensor behind some others. -/
def saveTensor (before : Bytes) (r : Ref) : Act Report := do
  return .bytes (before ++ (← ofRun (Blob.saveTensor r)))

/-- The bytes of named tensors. -/
def saveParams (r : Ref) : Act Report := do return .bytes (← ofRun (Blob.saveParams r))

/-- Named tensors read from bytes. -/
def loadParams (dest : Target) (blob : Bytes) : Act Report := do
  giveRef dest (← ofRun (Blob.loadParams blob))

end ObjectRuntime.Session
