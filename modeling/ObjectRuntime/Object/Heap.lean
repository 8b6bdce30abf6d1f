import ObjectRuntime.Object.Value
set_option autoImplicit false

/-!
# The heap of counted objects

An object has a type, a reference count and a content, which may hold references to other objects.
`Heap.retain` adds a reference; `Heap.release` gives one up, and when the last reference to an
object goes the object is destroyed and the references in its content are given up in turn.  Some
contents stand for resources of others, whose hooks run when the object is destroyed.

The functions of a program are data of the type parameter `κ`.
-/

namespace ObjectRuntime

/-- Something that is told when the object that stands for it is destroyed. -/
inductive Hook where
  | finalizer (serial : Nat)
  | deleter (serial : Nat)
  deriving DecidableEq, Repr

/-- Where the elements of a tensor are kept. -/
inductive TensorMemory where
  | owned (data : Bytes)
  | foreign (data : Bytes) (deleter : Option Hook)
  | sharedWith (source : ObjId)
  deriving DecidableEq, Repr

/-- A tensor in host memory: its elements start `byteOffset` bytes into the memory and are compact
and row-major. -/
structure Tensor where
  shape : List Int
  dtype : DataType
  unit : MachineInt .i32
  byteOffset : Nat
  memory : TensorMemory
  deriving DecidableEq, Repr

/-- A named table of functions and the modules it imports. -/
structure ModuleTable where
  kind : String
  functions : List (String × Ref)
  imports : List Ref
  deriving DecidableEq, Repr

/-- The content of an object.  A node holds the values of the visible fields of its schema. -/
inductive Payload (κ : Type) where
  | plain
  | text (s : String)
  | array (elems : List Ref)
  | map (entries : List (Ref × Ref))
  | shape (dims : List Int)
  | boxInt (n : I64)
  | boxFloat (x : Double)
  | boxBool (b : Bool)
  | node (values : List Value)
  | function (code : κ) (finalizer : Option Hook)
  | module (table : ModuleTable)
  | tensor (t : Tensor)

namespace Payload

variable {κ : Type}

/-- The references held by the content, with repetitions. -/
def references : Payload κ → List ObjId
  | .array elems => elems.reduceOption
  | .map entries => entries.flatMap fun (k, v) => k.toList ++ v.toList
  | .node values => values.filterMap Value.object?
  | .module table => (table.functions.map (·.2)).reduceOption ++ table.imports.reduceOption
  | .tensor t =>
    match t.memory with
    | .sharedWith source => [source]
    | _ => []
  | _ => []

/-- The hooks that run when the object is destroyed. -/
def hooks : Payload κ → List Hook
  | .function _ finalizer => finalizer.toList
  | .tensor t =>
    match t.memory with
    | .foreign _ deleter => deleter.toList
    | _ => []
  | _ => []

/-! The classes of boxes keep their content in a word.  If the table of types lets two of them share
an index, the objects of one are members of the other too, which reads the word in its own way. -/

/-- The truth value in a box. -/
def bool? : Payload κ → Option Bool
  | .boxBool b => some b
  | .boxInt n => some (n.toWord.toUInt8 != 0)
  | .boxFloat x => some (x.bits.toUInt8 != 0)
  | _ => none

/-- The integer in a box. -/
def int? : Payload κ → Option I64
  | .boxInt n => some n
  | .boxFloat x => some (MachineInt.wrap .i64 x.bits.toNat)
  | .boxBool b => some (if b then 1 else 0)
  | _ => none

/-- The floating point number in a box. -/
def double? : Payload κ → Option Double
  | .boxFloat x => some x
  | .boxInt n => some ⟨n.toWord⟩
  | .boxBool b => some ⟨if b then 1 else 0⟩
  | _ => none

end Payload

/-- A counted object. -/
structure Object (κ : Type) where
  typeIndex : Nat
  count : Nat
  payload : Payload κ

/-- The objects by name; a destroyed object leaves its name unused.  `hooksRun` lists the hooks that
have run, the latest first. -/
structure Heap (κ : Type) where
  cells : Array (Option (Object κ))
  hooksRun : List Hook

namespace Heap

variable {κ : Type}

/-- No object. -/
def empty : Heap κ := ⟨#[], []⟩

instance : Inhabited (Heap κ) := ⟨empty⟩

/-- The object with a name, while it is alive. -/
def get? (h : Heap κ) (id : ObjId) : Option (Object κ) := h.cells[id.index]?.join

/-- The reference count; zero once the object is destroyed. -/
def count (h : Heap κ) (id : ObjId) : Nat := ((h.get? id).map Object.count).getD 0

/-- Replaces the object with a name. -/
def set (h : Heap κ) (id : ObjId) (o : Option (Object κ)) : Heap κ :=
  { h with cells := h.cells.setIfInBounds id.index o }

/-- Creates an object with one reference, which is the caller's.  The references in the content
are taken over. -/
def alloc (h : Heap κ) (typeIndex : Nat) (payload : Payload κ) : Heap κ × ObjId :=
  ({ h with cells := h.cells.push (some ⟨typeIndex, 1, payload⟩) }, ⟨h.cells.size⟩)

/-- Adds a reference. -/
def retain (h : Heap κ) (id : ObjId) : Heap κ :=
  match h.get? id with
  | some o => h.set id (some { o with count := o.count + 1 })
  | none => h

/-- Adds a reference for each name of a list. -/
def retainAll (h : Heap κ) (ids : List ObjId) : Heap κ := ids.foldl retain h

/-- Replaces the content of an object. -/
def setPayload (h : Heap κ) (id : ObjId) (payload : Payload κ) : Heap κ :=
  match h.get? id with
  | some o => h.set id (some { o with payload })
  | none => h

/-- Runs the hooks of content that is destroyed. -/
def runHooks (h : Heap κ) (payload : Payload κ) : Heap κ :=
  { h with hooksRun := payload.hooks.reverse ++ h.hooksRun }

/-- Destroys an object and runs its hooks. -/
def destroy (h : Heap κ) (id : ObjId) (o : Object κ) : Heap κ := (h.set id none).runHooks o.payload

/-- Gives up one reference for each name of a list.  Those held by destroyed objects come first. -/
def releaseWithin : Nat → Heap κ → List ObjId → Heap κ
  | 0, h, _ => h
  | _, h, [] => h
  | fuel + 1, h, id :: rest =>
    match h.get? id with
    | none => releaseWithin fuel h rest
    | some o =>
      if o.count > 1 then
        releaseWithin fuel (h.set id (some { o with count := o.count - 1 })) rest
      else releaseWithin fuel (h.destroy id o) (o.payload.references ++ rest)

/-- One more than the references held by an object, and nothing for a destroyed one. -/
def weight : Option (Object κ) → Nat
  | some o => 1 + o.payload.references.length
  | none => 0

/-- The number of references that can be given up before every object is destroyed. -/
def totalWeight (h : Heap κ) : Nat := h.cells.foldl (fun n cell => n + weight cell) 0

/-- Gives up one reference for each name of a list, and all references that go with them. -/
def releaseAll (h : Heap κ) (ids : List ObjId) : Heap κ :=
  releaseWithin (h.totalWeight + ids.length) h ids

/-- Gives up one reference. -/
def release (h : Heap κ) (id : ObjId) : Heap κ :=
  match h.get? id with
  | none => h
  | some o =>
    if o.count > 1 then h.set id (some { o with count := o.count - 1 }) else h.releaseAll [id]

/-- Destroys content that has not become an object: its hooks run, and the references in it are
given up. -/
def discard (h : Heap κ) (payload : Payload κ) : Heap κ :=
  payload.references.foldl release (h.runHooks payload)

/-- How often a hook of some kind has run. -/
def hookCount (h : Heap κ) (p : Hook → Bool) : Nat := h.hooksRun.countP p

end Heap

end ObjectRuntime
