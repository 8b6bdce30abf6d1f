import ObjectRuntime.Container.Map
import ObjectRuntime.Tensor.Memory
set_option autoImplicit false

/-!
# Parameter blobs

A blob holds named tensors as bytes: a tag, the names, and then the tensors in the same order, each
with a tag, its device, rank, data type and extents, and its data.  Every number is little-endian,
and names, data and both lists carry their length in front.

`TensorRecord` and `ParamRecord` are what a blob says.  Their `encode` writes it, and a `Step` reads
it back from the front of some bytes; a reader of a whole blob accepts no bytes after it.
-/

namespace ObjectRuntime.Blob

/-- The tag of a list of named tensors. -/
def paramsTag : Nat := 0xF7E58D4F05049CB7

/-- The tag of a tensor. -/
def tensorTag : Nat := 0xDD5E40F096B4A13F

/-- A tensor as it stands in a blob. -/
structure TensorRecord where
  device : RawDevice
  dtype : DataType
  shape : List Int
  data : Bytes
  deriving DecidableEq, Repr

/-- Named tensors as they stand in a blob. -/
structure ParamRecord where
  names : List String
  tensors : List TensorRecord
  deriving DecidableEq, Repr

/-! ## Writing -/

/-- Bytes with their length in front. -/
def encodeData (data : Bytes) : Bytes := Bytes.ofNat 8 data.length ++ data

/-- The bytes of a tensor. -/
def TensorRecord.encode (t : TensorRecord) : Bytes :=
  Bytes.ofNat 8 tensorTag ++ Bytes.ofNat 8 0
    ++ Bytes.ofNat 4 t.device.kind.toNat ++ Bytes.ofInt 4 t.device.unit.val
    ++ Bytes.ofNat 4 t.shape.length
    ++ [t.dtype.code, t.dtype.bits] ++ Bytes.ofNat 2 t.dtype.lanes.toNat
    ++ t.shape.flatMap (Bytes.ofInt 8) ++ encodeData t.data

/-- The bytes of named tensors. -/
def ParamRecord.encode (p : ParamRecord) : Bytes :=
  Bytes.ofNat 8 paramsTag ++ Bytes.ofNat 8 0
    ++ Bytes.ofNat 8 p.names.length ++ p.names.flatMap (fun name => encodeData (Utf8.encode name))
    ++ Bytes.ofNat 8 p.tensors.length ++ p.tensors.flatMap TensorRecord.encode

/-! ## Reading -/

/-- Reads something from the front of the bytes that are left of a blob of `total` bytes. -/
abbrev Step (α : Type) := (total : Nat) → Bytes → Except BlobDefect (α × Bytes)

namespace Step

variable {α β : Type}

/-- Reads nothing. -/
def pure (a : α) : Step α := fun _ rest => .ok (a, rest)

/-- Reads one thing after another. -/
def bind (first : Step α) (next : α → Step β) : Step β := fun total rest =>
  match first total rest with
  | .ok (a, rest) => next a total rest
  | .error defect => .error defect

instance : Monad Step where
  pure := pure
  bind := bind

/-- A fixed number in eight bytes. -/
def tag (expected : Nat) : Step Unit := fun total rest =>
  if rest.take 8 = Bytes.ofNat 8 expected then .ok ((), rest.drop 8)
  else .error (.badTag (total - rest.length))

/-- A number of the given width in bytes, without a sign. -/
def number (width : Nat) : Step Nat := fun total rest =>
  if width ≤ rest.length then .ok (Bytes.toNat (rest.take width), rest.drop width)
  else .error (.shortInteger (total - rest.length))

/-- A number of a machine type. -/
def machineInt (k : IntKind) : Step (MachineInt k) := do
  return MachineInt.wrap k (← number (k.width / 8))

/-- The same thing a number of times. -/
def times (step : Step α) : Nat → Step (List α)
  | 0 => pure []
  | count + 1 => do
    let a ← step
    return a :: (← times step count)

/-- Bytes with their length in front. -/
def data : Step Bytes := do
  let length ← number 8
  fun _ rest =>
    if length ≤ rest.length then .ok (rest.take length, rest.drop length) else .error .shortData

/-- A text with its length in front. -/
def name : Step String := fun total rest =>
  match data total rest with
  | .error defect => .error defect
  | .ok (bytes, after) =>
    match Utf8.decode? bytes with
    | some s => .ok (s, after)
    | none => .error (.nameNotText (total - rest.length))

/-- A tensor.  A negative rank counts as zero. -/
def tensor : Step TensorRecord := do
  tag tensorTag
  let _ ← number 8
  let kind ← number 4
  let unit ← machineInt .i32
  let rank ← machineInt .i32
  let code ← number 1
  let bits ← number 1
  let lanes ← number 2
  let dims ← times (machineInt .i64) rank.val.toNat
  let bytes ← data
  return {
    device := ⟨UInt32.ofNat kind, unit⟩
    dtype := ⟨UInt8.ofNat code, UInt8.ofNat bits, UInt16.ofNat lanes⟩
    shape := dims.map (·.val)
    data := bytes }

/-- Named tensors. -/
def params : Step ParamRecord := do
  tag paramsTag
  let _ ← number 8
  let names ← times name (← number 8)
  let tensors ← times tensor (← number 8)
  return ⟨names, tensors⟩

/-- Reads the whole of a blob. -/
def readAll (step : Step α) (blob : Bytes) : Except BlobDefect α :=
  match step blob.length blob with
  | .error defect => .error defect
  | .ok (a, []) => .ok a
  | .ok (_, rest) => .error (.leftover (blob.length - rest.length))

end Step

/-! ## Tensors and blobs -/

variable {κ : Type}

/-- What a blob says of a tensor: its elements come from host memory. -/
def recordOf (w : World κ) (id : ObjId) (t : Tensor) : Except Fault TensorRecord := do
  return ⟨Device.host.toRaw, t.dtype, t.shape, ← w.tensorBytes id t⟩

/-- The bytes of a tensor, which has to be there. -/
def saveTensor (r : Ref) : Run κ Bytes := do
  let (id, t) ← Tensor.deref r
  return (← Run.ofFallible (recordOf (← get) id t)).encode

/-- The content of a string, which has to be there. -/
def derefText (w : World κ) (r : Ref) : Except Fault String :=
  match r.bind w.text? with
  | some s => .ok s
  | none => .error (.panic (.nullDereference "String"))

/-- The bytes of a map from strings to tensors. -/
def saveParams (r : Ref) : Run κ Bytes := do
  let w ← get
  let entries ← Run.ofFallible (Dict.iterate w .string .tensor r)
  let names ← Run.ofFallible (entries.mapM fun (name, _) => derefText w name)
  let tensors ← entries.mapM fun (_, array) => do
    let (id, t) ← Tensor.deref array
    Run.ofFallible (recordOf w id t)
  return ParamRecord.encode ⟨names, tensors⟩

/-- A new tensor with the content that a blob describes. -/
def restore (saved : TensorRecord) : Run κ ObjId := do
  if saved.device.kind ≠ DeviceKind.cpu.code then
    Run.fail (.blobFormat (.foreignDevice saved.device.kind.toNat))
  let id ← Tensor.zeros saved.shape saved.dtype .host
  Run.releasingOnFault [id] do
    let (_, t) ← Tensor.deref (some id)
    let size ← Run.ofFallible t.size
    if size ≠ saved.data.length then
      Run.fail (.blobFormat (.dataSize size saved.shape saved.data.length))
    Tensor.fill id t saved.data
  return id

/-- Reads a tensor. -/
def loadTensor (blob : Bytes) : Run κ ObjId := do
  match Step.readAll Step.tensor blob with
  | .ok saved => restore saved
  | .error defect => Run.fail (.blobFormat defect)

/-- Adds named tensors to a map, which is taken over. -/
def insertAll (r : Ref) : List (String × TensorRecord) → Run κ Ref
  | [] => pure r
  | (name, saved) :: rest => do
    let r ← Run.releasingOnFault r.toList do
      let key ← Run.create .string (.text name)
      let value ← Run.releasingOnFault [key] (restore saved)
      Dict.insert r (some key) (some value)
    insertAll r rest

/-- Reads named tensors into a map; of two with the same name the later one stays. -/
def loadParams (blob : Bytes) : Run κ Ref := do
  match Step.readAll Step.params blob with
  | .error defect => Run.fail (.blobFormat defect)
  | .ok p =>
    if p.names.length ≠ p.tensors.length then
      Run.fail (.blobFormat (.countMismatch p.names.length p.tensors.length))
    insertAll (← Dict.ofList []) (p.names.zip p.tensors)

end ObjectRuntime.Blob
