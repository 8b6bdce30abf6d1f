import ObjectRuntime.Host
import ObjectRuntime.Reflection.Schema
set_option autoImplicit false

/-!
# The state of a program and its operations

`World` is everything that an operation can see or change.  An operation of type `Run κ α` ends with
a result or a fault and leaves a world in either case.  By convention an operation borrows the
references in its arguments and owns those in its result: its caller has to give the latter up
once they are no longer needed.  `releasing` and `releasingOnFault` give references up whether or
not what they enclose fails.
-/

namespace ObjectRuntime

/-- Something that is made when it is first asked for.  If that fails it can never be had. -/
inductive OnDemand (α : Type) where
  | unused
  | ready (a : α)
  | broken
  deriving DecidableEq, Repr

/-- A wrapper of a global function: its own name and that of the function. -/
structure Wrapper where
  name : String
  function : String
  deriving DecidableEq, Repr

/-- The state of a program whose functions are described by `κ`.  The registry holds one reference
to each function ever registered. -/
structure World (κ : Type) where
  heap : Heap κ
  types : TypeTable
  schemas : List (Nat × Schema)
  registry : OnDemand (List (String × Ref))
  lastError : String
  wrappers : List (Wrapper × Ref)
  systemLibrary : OnDemand ObjId
  host : CountingHost
  nextSerial : Nat

/-- An operation on the world. -/
abbrev Run (κ : Type) := ExceptT Fault (StateM (World κ))

namespace World

variable {κ : Type}

/-- The world before anything happened. -/
def initial : World κ :=
  ⟨.empty, .initial, [], .unused, "", [], .unused, .initial 0, 0⟩

instance : Inhabited (World κ) := ⟨initial⟩

/-- The content of an object. -/
def payload? (w : World κ) (id : ObjId) : Option (Payload κ) := (w.heap.get? id).map Object.payload

/-- The type index of an object. -/
def typeIndex (w : World κ) (id : ObjId) : Nat :=
  ((w.heap.get? id).map Object.typeIndex).getD TypeTable.rootIndex

/-- The key of an object's type. -/
def typeKey (w : World κ) (id : ObjId) : String := w.types.showKey (w.typeIndex id)

/-- The object belongs to a class.  A class that nothing has used yet has no objects. -/
def isInstance (w : World κ) (id : ObjId) (c : ObjectClass) : Bool :=
  match w.types.classIndex? c with
  | some first => w.types.isInstance (w.typeIndex id) first c
  | none => false

/-- The name of a value's type: the key of an object's type, else the name of the type code. -/
def valueTypeName (w : World κ) (v : Value) : String :=
  match v.object? with
  | some id => w.typeKey id
  | none => TypeCode.name v.typeCode

/-- The functions in the registry by name. -/
def functions (w : World κ) : List (String × Ref) :=
  match w.registry with
  | .ready functions => functions
  | _ => []

/-- The schema of a reflected type.  The built-in ones need not be made known; of two at one index
the later counts. -/
def schemaAt? (w : World κ) (typeIndex : Nat) : Option Schema :=
  match Schema.builtins.reverse.find? fun s => w.types.classIndex? s.cls == some typeIndex with
  | some schema => some schema
  | none => w.schemas.lookup typeIndex

/-- The schema of an object, if its type is reflected. -/
def schemaOf? (w : World κ) (id : ObjId) : Option Schema := w.schemaAt? (w.typeIndex id)

/-- The elements of an array. -/
def elements (w : World κ) (r : Ref) : List Ref :=
  match r.bind w.payload? with
  | some (.array elems) => elems
  | _ => []

/-- The entries of a map in the order of insertion. -/
def entries (w : World κ) (r : Ref) : List (Ref × Ref) :=
  match r.bind w.payload? with
  | some (.map entries) => entries
  | _ => []

/-- The content of a string. -/
def text? (w : World κ) (id : ObjId) : Option String :=
  match w.payload? id with
  | some (.text s) => some s
  | _ => none

/-- A number that tells the place of an object; nothing is at zero. -/
def placeOf : Ref → UInt64
  | some id => UInt64.ofNat (16 * (id.index + 1))
  | none => 0

end World

namespace Run

variable {κ α β : Type}

/-- Fails with an error. -/
def fail (cause : Error) : Run κ α := throw (.error cause)

/-- Gives the operation up. -/
def panic (cause : Panic) : Run κ α := throw (.panic cause)

/-- An answer computed without the world. -/
def ofExcept : Except Error α → Run κ α
  | .ok a => pure a
  | .error cause => fail cause

/-- An answer computed without the world that may be given up. -/
def ofFallible : Except Fault α → Run κ α
  | .ok a => pure a
  | .error fault => throw fault

/-- Runs an operation and afterwards changes the world, whether or not it failed. -/
def andFinally (body : Run κ α) (cleanup : World κ → World κ) : Run κ α :=
  fun w =>
    let (answer, w) := body w
    (answer, cleanup w)

/-- Runs an operation and changes the world if it failed. -/
def onFault (body : Run κ α) (cleanup : World κ → World κ) : Run κ α :=
  fun w =>
    match body w with
    | (.error fault, w) => (.error fault, cleanup w)
    | answer => answer

/-- Runs an operation and tells its outcome. -/
def outcome (body : Run κ α) : Run κ (Except Fault α) :=
  fun w =>
    let (answer, w) := body w
    (.ok answer, w)

/-- Changes the heap. -/
def modifyHeap (f : Heap κ → Heap κ) : Run κ Unit := modify fun w => { w with heap := f w.heap }

/-- Adds a reference. -/
def retain (id : ObjId) : Run κ Unit := modifyHeap (·.retain id)

/-- Gives up a reference. -/
def release (id : ObjId) : Run κ Unit := modifyHeap (·.release id)

/-- Gives up references. -/
def releaseAll (ids : List ObjId) : Run κ Unit := modifyHeap (ids.foldl Heap.release)

/-- Adds a reference to whatever a reference refers to. -/
def retainRef (r : Ref) : Run κ Unit :=
  match r with
  | some id => retain id
  | none => pure ()

/-- Adds a reference to the object that a value carries. -/
def retainValue (v : Value) : Run κ Unit := retainRef v.object?

/-- Runs an operation and gives up references afterwards. -/
def releasing (ids : List ObjId) (body : Run κ α) : Run κ α :=
  andFinally body fun w => { w with heap := ids.foldl Heap.release w.heap }

/-- Runs an operation and gives up references if it fails. -/
def releasingOnFault (ids : List ObjId) (body : Run κ α) : Run κ α :=
  onFault body fun w => { w with heap := ids.foldl Heap.release w.heap }

/-- Looks up the index of a class, registering it on first use. -/
def touch (c : ObjectClass) : Run κ Nat :=
  fun w =>
    let (answer, types) := w.types.touch c
    (answer, { w with types })

/-- Registers the classes of the built-in schemas, as every use of reflection does. -/
def useReflection : Run κ Unit :=
  Schema.builtins.forM fun s => do
    let _ ← touch s.cls

/-- Gives something that is made on demand.  Whatever is asked for while it is being made, or after
that has failed, cannot be had. -/
def demand (place : World κ → OnDemand α) (put : OnDemand α → World κ → World κ)
    (make : Run κ α) : Run κ α := do
  match place (← get) with
  | .ready a => return a
  | .broken => panic .unavailable
  | .unused =>
    modify (put .broken)
    let a ← make
    modify (put (.ready a))
    return a

/-- Creates an object of a class, which takes over its content.  If the class cannot be had the
content is destroyed. -/
def create (c : ObjectClass) (payload : Payload κ) : Run κ ObjId := do
  let index ← onFault (touch c) fun w => { w with heap := w.heap.discard payload }
  fun w =>
    let (heap, id) := w.heap.alloc index payload
    (.ok id, { w with heap })

/-- Runs an operation on each element from left to right.  Each result owns the references that
`owned` names; if a later element fails, those of the earlier ones are given up. -/
def mapOwned (owned : β → List ObjId) (f : α → Run κ β) : List α → Run κ (List β)
  | [] => pure []
  | a :: rest => do
    let b ← f a
    let bs ← releasingOnFault (owned b) (mapOwned owned f rest)
    pure (b :: bs)

/-- A number that no hook has been given before. -/
def freshSerial : Run κ Nat :=
  fun w => (.ok w.nextSerial, { w with nextSerial := w.nextSerial + 1 })

end Run

end ObjectRuntime
