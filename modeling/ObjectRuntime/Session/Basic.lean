import ObjectRuntime.Sample.Callbacks
import ObjectRuntime.Sample.Classes
set_option autoImplicit false

/-!
# Sessions

A session is a world together with names for some of its values.  A register holds a value and with
it one reference to the object that the value carries.  A handle is what a caller outside the
runtime holds: a reference to an object, a tensor lent to it, or a tensor of its own.
-/

namespace ObjectRuntime

/-- The code of the functions in a session. -/
abbrev SessionCode := FunctionCode SampleCode

/-- What a caller outside the runtime holds. -/
inductive Handle where
  | object (id : ObjId)
  | managed (m : ManagedTensor)
  | plain (t : PlainTensor)
  deriving DecidableEq, Repr

/-- A world, its registers and the handles of a caller outside. -/
structure Session where
  world : World SessionCode
  registers : List (String × Value)
  handles : List (String × Handle)

/-- An operation on a session. -/
abbrev Act := ExceptT Fault (StateM Session)

namespace Session

variable {α β : Type}

/-- A session before anything happened. -/
def bare : Session := ⟨.initial, [], []⟩

/-- Runs an operation on the world. -/
def ofRun (body : Run SessionCode α) : Act α :=
  fun s =>
    let (answer, world) := body s.world
    (answer, { s with world })

/-- The world at this moment. -/
def currentWorld : Act (World SessionCode) := do return (← get).world

/-- Fails with an error. -/
def fail (cause : Error) : Act α := throw (.error cause)

/-- Runs an operation and gives up references afterwards. -/
def releasing (ids : List ObjId) (body : Act α) : Act α :=
  fun s =>
    let (answer, s) := body s
    (answer, { s with world.heap := ids.foldl Heap.release s.world.heap })

/-- Runs an operation and gives up references if it fails. -/
def releasingOnFault (ids : List ObjId) (body : Act α) : Act α :=
  fun s =>
    match body s with
    | (.error fault, s) =>
      (.error fault, { s with world.heap := ids.foldl Heap.release s.world.heap })
    | answer => answer

/-- Runs an operation and tells its outcome. -/
def outcome (body : Act α) : Act (Except Fault α) :=
  fun s =>
    let (answer, s) := body s
    (.ok answer, s)

/-! ## Registers -/

/-- What a register holds. -/
def register? (name : String) : Act (Option Value) := do
  return (← get).registers.lookup name

/-- What a register holds, which has to be set. -/
def register (name : String) : Act Value := do
  match ← register? name with
  | some v => return v
  | none => fail (.raw ("register " ++ name ++ " is not set"))

/-- Sets a register.  The reference that the value owns goes over to the register. -/
def store (name : String) (v : Value) : Act Unit := do
  let replaced := (← register? name).bind Value.object?
  modify fun s => { s with registers := NameTable.put name v s.registers }
  ofRun (Run.releaseAll replaced.toList)

/-- Takes the value out of a register, which is no longer set. -/
def take (name : String) : Act Value := do
  let v ← register name
  modify fun s => { s with registers := NameTable.erase name s.registers }
  return v

/-- Gives up a register. -/
def drop (name : String) : Act Unit := do
  let v ← take name
  ofRun (Run.releaseAll v.object?.toList)

/-- Puts a value into a register, or gives it up if there is none. -/
def keep (name : Option String) (v : Value) : Act Unit :=
  match name with
  | some name => store name v
  | none => ofRun (Run.releaseAll v.object?.toList)

/-- Checks a reference against a static type and passes it on. -/
def checked (t : RefType) (r : Ref) : Act Ref := ofRun (Run.downcast t r)

/-- Changes the object in a register, which has to be of the given type; a plain value counts as no
object.  The register gives up its reference meanwhile, so that the object is changed in place if
nothing else refers to it; if the change fails the register keeps it, and if the change is given up
the object goes with it.  The first answer says whether the register still refers to the same
object. -/
def change (name : String) (t : RefType) (body : Ref → Run SessionCode (Ref × α)) :
    Act (Bool × Ref × α) := do
  let r := (← take name).object?
  let r ← releasingOnFault r.toList (checked t r)
  match ← outcome (ofRun (body r)) with
  | .ok (changed, a) =>
    store name (.ofRef .object changed)
    return (changed == r, changed, a)
  | .error (.error cause) =>
    store name (.ofRef .object r)
    fail cause
  | .error (.panic cause) =>
    ofRun (Run.releaseAll r.toList)
    throw (.panic cause)

/-! ## Handles -/

/-- What a handle refers to. -/
def handle? (name : Option String) : Act (Option Handle) := do
  match name with
  | some name => return (← get).handles.lookup name
  | none => return none

/-- The object behind a handle; nothing if there is none. -/
def objectHandle (name : Option String) : Act Ref := do
  match ← handle? name with
  | some (.object id) => return some id
  | _ => return none

/-- The tensor behind a handle; nothing if there is none. -/
def tensorHandle (name : Option String) : Act (Option TensorHandle) := do
  match ← handle? name with
  | some (.object id) => return some (.object id)
  | some (.plain t) => return some (.plain t)
  | _ => return none

/-- The lent tensor behind a handle; nothing if there is none. -/
def managedHandle (name : Option String) : Act (Option ManagedTensor) := do
  match ← handle? name with
  | some (.managed m) => return some m
  | _ => return none

/-- Sets a handle. -/
def setHandle (name : String) (h : Handle) : Act Unit :=
  modify fun s => { s with handles := NameTable.put name h s.handles }

/-- Forgets a handle, whose reference is no longer the caller's. -/
def forgetHandle (name : String) : Act Unit :=
  modify fun s => { s with handles := NameTable.erase name s.handles }

/-! ## Beginnings -/

/-- Makes the classes and functions of a session known.  The session holds a reference of its own to
each of these functions. -/
def prepare : Act Unit :=
  ofRun do
    Sample.registerClasses
    Registry.prepare
    (← get).functions.forM fun (_, f) => Run.retainRef f

/-- A session with all classes and functions. -/
def start : Session := (prepare bare).2

end Session

end ObjectRuntime
