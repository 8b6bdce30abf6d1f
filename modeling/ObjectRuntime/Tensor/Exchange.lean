import ObjectRuntime.Tensor.Memory
set_option autoImplicit false

/-!
# Exchange of tensors

A managed tensor describes memory that its producer lends to a consumer, together with what has to
be told when the consumer no longer needs it.  An export lends the memory of a tensor object and
holds a reference to it.  An import makes a tensor object over the lent memory without copying,
which takes the managed tensor over; if it is refused the managed tensor stays as it is.
-/

namespace ObjectRuntime

/-- Who lends the memory: an exporting tensor object, to which a reference is held, or a foreign
producer, whose data starts some bytes past an aligned address. -/
inductive Lender where
  | exporter (id : ObjId)
  | foreign (data : Bytes) (misalignment : Nat) (deleter : Option Hook)
  deriving DecidableEq, Repr

/-- A tensor lent to a consumer.  The first form of the exchange carries no version. -/
structure ManagedTensor where
  version : Option (Nat × Nat)
  shape : List Int
  strides : Option (List Int)
  dtype : DataType
  device : RawDevice
  byteOffset : Nat
  lender : Lender
  deriving DecidableEq, Repr

namespace ManagedTensor

variable {κ : Type}

/-- The version written into exports. -/
def currentVersion : Nat × Nat := (1, 0)

/-- The name of a missing managed tensor in errors. -/
def handleName (versioned : Bool) : String :=
  if versioned then "DLManagedTensorVersioned" else "DLManagedTensor"

/-- Lends the memory of a tensor object. -/
def exportTensor (id : ObjId) (t : Tensor) (versioned : Bool) : Run κ ManagedTensor := do
  Run.retain id
  return {
    version := if versioned then some currentVersion else none
    shape := t.shape
    strides := none
    dtype := t.dtype
    device := ⟨DeviceKind.cpu.code, t.unit⟩
    byteOffset := t.byteOffset
    lender := .exporter id }

/-- The distance of the first element from an aligned address.  The elements of a tensor object are
aligned. -/
def misalignment (m : ManagedTensor) : Nat :=
  match m.lender with
  | .exporter _ => 0
  | .foreign _ past _ => (past + m.byteOffset) % Tensor.alignment

/-- The tensor can be used without copying. -/
def check (m : ManagedTensor) : Except Fault Unit := do
  match m.version with
  | some (major, minor) =>
    if major ≠ currentVersion.1 then
      throw (.error (.tensor (.unsupportedVersion major minor)))
  | none => pure ()
  match Tensor.checkHost m.device with
  | .error cause => throw (.error cause)
  | .ok () => pure ()
  if !(← Layout.isContiguous m.shape m.strides) then throw (.error (.tensor .notContiguous))
  if m.misalignment ≠ 0 then throw (.error (.tensor (.notAligned Tensor.alignment)))
  match Tensor.checkShape m.shape with
  | .error cause => throw (.error cause)
  | .ok () => pure ()

/-- The memory of an import: the managed tensor goes over to it. -/
def memory (m : ManagedTensor) : TensorMemory :=
  match m.lender with
  | .exporter id => .sharedWith id
  | .foreign data _ deleter => .foreign data deleter

/-- The tensor that an import makes. -/
def header (m : ManagedTensor) : Tensor :=
  ⟨m.shape, m.dtype, m.device.unit, m.byteOffset, m.memory⟩

/-- The memory of a foreign producer reaches to the end of the tensor; what is not given of it is
zero. -/
def filledUp (m : ManagedTensor) : ManagedTensor :=
  match m.lender, m.header.size with
  | .foreign data past deleter, .ok size =>
    let missing := m.byteOffset + size - data.length
    { m with lender := .foreign (data ++ List.replicate missing 0) past deleter }
  | _, _ => m

/-- A tensor object over the lent memory, which belongs to it once it has passed the check. -/
def importTensor (m : ManagedTensor) : Run κ ObjId := do
  Run.ofFallible m.check
  Run.create .tensor (.tensor m.header)

/-- Tells the lender that the memory is no longer needed. -/
def giveBack (m : ManagedTensor) : Run κ Unit := do
  match m.lender with
  | .exporter id => Run.release id
  | .foreign _ _ deleter =>
    Run.modifyHeap fun h => { h with hooksRun := deleter.toList ++ h.hooksRun }

end ManagedTensor

end ObjectRuntime
