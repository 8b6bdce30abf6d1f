import ObjectRuntime.Boundary.Guard
import ObjectRuntime.Function.Registry
import ObjectRuntime.Tensor.Exchange
set_option autoImplicit false

/-!
# Entry points

The operations that code outside the runtime may call.  A handle is a reference of the caller's own,
or nothing; a handle that is answered carries a reference for the caller.  `out` says whether the
pointer for the answer is there: where an answer is produced before the pointer is looked at, a
reference in it is lost if the pointer is missing.
-/

namespace ObjectRuntime

/-- A tensor in memory of the caller that is no object. -/
structure PlainTensor where
  shape : List Int
  strides : Option (List Int)
  dtype : DataType
  device : RawDevice
  byteOffset : Nat
  data : Bytes
  deriving DecidableEq, Repr

/-- What a tensor handle may refer to. -/
inductive TensorHandle where
  | object (id : ObjId)
  | plain (t : PlainTensor)
  deriving DecidableEq, Repr

namespace Boundary

variable {κ ε : Type}

/-- An answer that is written once the pointer for it is known to be there. -/
def writeOut {α : Type} (out : Bool) (a : α) : Run κ α := do
  Run.ofExcept (needPointer out)
  return a

/-! ## Functions -/

/-- Calls a function with the first `count` of the cells and answers with the cell of its result. -/
def callFunction [Callable ε] (outValue outCode : Bool) (f : Ref) (count : Int)
    (hasCells : Bool) : Incoming (FunctionCode ε) (Answer Cell) :=
  guardedIncoming do
    Incoming.ofRun (Run.ofExcept (needPointer outValue))
    Incoming.ofRun (Run.ofExcept (needPointer outCode))
    let f ← Incoming.ofRun (needInstance "TVMFunctionHandle" .function f)
    if count < 0 then Incoming.fail (.outOfRange (toString count) IntKind.usize.name)
    else if count ≠ 0 && !hasCells then Incoming.fail .nullPointer
    else
      let vs ← Incoming.readCells ((← get).cells.take count.toNat)
      Incoming.ofRun do
        let result ← Run.releasing (vs.filterMap Value.object?) (Function.invoke (some f) vs)
        exportValue result

/-- A global function, or nothing if there is none. -/
def getGlobal (name : Option Bytes) (out : Bool) : Run (FunctionCode ε) (Answer Ref) :=
  guarded do
    let name ← Run.ofExcept (needText name)
    let f := (← Registry.lookup name).join
    Run.retainRef f
    writeOut out f

/-- Registers a function. -/
def registerGlobal (name : Option Bytes) (f : Ref) (override : Bool) :
    Run (FunctionCode ε) (Answer Unit) :=
  guarded do
    let name ← Run.ofExcept (needText name)
    let f ← needInstance "TVMFunctionHandle" .function f
    Run.retain f
    Registry.register name (some f) override

/-- Removes the name of a function. -/
def removeGlobal (name : Option Bytes) : Run (FunctionCode ε) (Answer Unit) :=
  guarded do
    let _ ← Registry.remove (← Run.ofExcept (needText name))
    return ()

/-- The names of all functions. -/
def listGlobals (outSize outArray : Bool) : Run (FunctionCode ε) (Answer (List String)) :=
  guarded do
    let names ← Registry.list
    Run.ofExcept (names.forM fun name => discard (writeText name))
    Run.ofExcept (needPointer outSize)
    Run.ofExcept (needPointer outArray)
    return names

/-- A new function for a callback.  The finalizer runs when the function is destroyed. -/
def createFunction (code : Option κ) (finalizer : Option Hook) (out : Bool) :
    Run κ (Answer Ref) :=
  guarded do
    Run.ofExcept (needPointer out)
    match code with
    | none => Run.fail (.nullHandle "TVMPackedCFunc")
    | some code => return some (← Function.make code finalizer)

/-! ## Objects -/

/-- The type index of an object. -/
def typeIndex (handle : Ref) (out : Bool) : Run κ (Answer Nat) :=
  guarded do
    let id ← Run.ofExcept (needObject "TVMObjectHandle" handle)
    writeOut out ((← get).typeIndex id)

/-- Adds a reference. -/
def retainHandle (handle : Ref) : Run κ (Answer Unit) := guarded (Run.retainRef handle)

/-- Gives up a reference. -/
def freeHandle (handle : Ref) : Run κ (Answer Unit) := guarded (Run.releaseAll handle.toList)

/-- The index of the type with a key. -/
def keyToIndex (key : Option Bytes) (out : Bool) : Run κ (Answer Nat) :=
  guarded do
    let key ← Run.ofExcept (needText key)
    let index ← Run.query (·.types.indexOf key)
    writeOut out index

/-- The key of the type with an index. -/
def indexToKey (index : Nat) (out : Bool) : Run κ (Answer String) :=
  guarded do
    let key ← Run.query (·.types.keyOf index)
    let _ ← Run.ofExcept (writeText key)
    writeOut out key

/-- Whether one type is derived from another. -/
def derivedFrom (child parent : Nat) (out : Bool) : Run κ (Answer Bool) :=
  guarded do writeOut out ((← get).types.derivedFrom child parent)

/-! ## Tensors -/

/-- A new tensor of zeros.  The numbers of the data type are cut to their fields. -/
def allocTensor (shape : Option (List Int)) (rank code bits lanes : Int) (device : RawDevice)
    (out : Bool) : Run κ (Answer Ref) :=
  guarded do
    Run.ofExcept (needPointer out)
    if rank < 0 then Run.fail (.outOfRange (toString rank) IntKind.usize.name)
    let dims : List Int ←
      if rank = 0 then pure []
      else match shape with
        | none => Run.fail .nullPointer
        | some dims => pure (dims.take rank.toNat)
    let dtype : DataType := ⟨UInt8.ofInt code, UInt8.ofInt bits, UInt16.ofInt lanes⟩
    let device ← Run.ofExcept (World.deviceOfRaw device)
    return some (← Tensor.zeros dims dtype device)

/-- The tensor behind a handle as it lies in memory. -/
def viewTensor (h : TensorHandle) : Run κ PlainTensor := do
  match h with
  | .plain t => return t
  | .object id =>
    let (_, t) ← Tensor.deref (some id)
    return ⟨t.shape, none, t.dtype, ⟨DeviceKind.cpu.code, t.unit⟩, t.byteOffset,
      (← get).memoryBytes id⟩

/-- A tensor that can be copied: it is compact and in host memory. -/
def checkCopy (t : PlainTensor) : Run κ Unit := do
  if t.device.kind ≠ DeviceKind.cpu.code then
    let device ← Run.ofExcept (World.deviceOfRaw t.device)
    Run.fail (.tensor (.unsupportedDevice device.toText))
  if !(← Run.ofFallible (Layout.isContiguous t.shape t.strides)) then
    Run.fail (.tensor .notContiguous)

/-- Copies all elements of one tensor over those of another of the same size, and answers with the
target as it lies in memory afterwards. -/
def copyTensor (source target : Option TensorHandle) : Run κ (Answer TensorHandle) :=
  guarded do
    match source, target with
    | some source, some target =>
      let origin ← viewTensor source
      let dest ← viewTensor target
      checkCopy origin
      checkCopy dest
      let fromSize ← Run.ofFallible (Layout.dataSize origin.shape origin.dtype)
      let toSize ← Run.ofFallible (Layout.dataSize dest.shape dest.dtype)
      if fromSize ≠ toSize then Run.fail (.tensor (.sizeMismatch toSize fromSize))
      let data := (origin.data.drop origin.byteOffset).take fromSize
      match target with
      | .object id =>
        Tensor.writeMemory id dest.byteOffset data
        return target
      | .plain t => return .plain { t with data := Bytes.overwrite t.data t.byteOffset data }
    | _, _ => Run.fail .nullPointer

/-- A tensor over lent memory. -/
def fromManaged (managed : Option ManagedTensor) (out : Bool) : Run κ (Answer Ref) :=
  guarded do
    Run.ofExcept (needPointer out)
    match managed with
    | none => Run.fail .nullPointer
    | some m => return some (← m.importTensor)

/-- Lends the memory of a tensor. -/
def toManaged (handle : Ref) (out : Bool) : Run κ (Answer ManagedTensor) :=
  guarded do
    let id ← needInstance "TVMArrayHandle" .tensor handle
    let (id, t) ← Tensor.deref (some id)
    let m ← ManagedTensor.exportTensor id t false
    writeOut out m

/-! ## Modules and the host -/

/-- A function of a module, or nothing if there is none. -/
def moduleFunction (module : Ref) (name : Option Bytes) (imports out : Bool) :
    Run κ (Answer Ref) :=
  guarded do
    let id ← needInstance "TVMModuleHandle" .module module
    let name ← Run.ofExcept (needText name)
    let f := (← Module.lookup id name imports).join
    writeOut out f

/-- Adds a function to the system library. -/
def registerSystemFunction (name : Option Bytes) (code : κ) : Run κ (Answer Unit) :=
  guarded do
    let name ← Run.ofExcept (needText name)
    let library ← Module.systemLibrary
    Run.releasing [library] do
      Module.register library name (some (← Function.make code none))

/-- Registers an entry point of the host. -/
def registerHostSymbol (name : Option Bytes) (callback : Option HostCallback) :
    Run κ (Answer Unit) :=
  guarded do
    let name ← Run.ofExcept (needText name)
    let host ← Run.query fun w => w.host.register name callback
    modify fun w => { w with host }

end Boundary

end ObjectRuntime
