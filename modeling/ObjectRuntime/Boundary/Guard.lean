import ObjectRuntime.Boundary.Arguments
set_option autoImplicit false

/-!
# Guarded calls

No failure crosses the boundary.  An operation that is called from outside answers with a status,
and the message of its error, or of the panic that stopped it, becomes the last error.  Its
results are written through pointers, any of which may be missing.
-/

namespace ObjectRuntime

/-- The answer to a call from outside. -/
inductive Answer (α : Type) where
  | success (out : α)
  | failure
  deriving DecidableEq, Repr

/-- The class of the objects that a handle is said to refer to has no name outside; this is the name
of the handle. -/
abbrev HandleName := String

namespace Boundary

variable {κ α : Type}

/-- The text of the last error, in which zero characters are spelt out. -/
def errorText (message : String) : String :=
  String.ofList (message.toList.flatMap fun c => if c = '\x00' then ['\\', '0'] else [c])

/-- Remembers an error. -/
def setLastError (message : String) : Run κ Unit :=
  modify fun w => { w with lastError := errorText message }

/-- The last error. -/
def lastError : Run κ String := do return (← get).lastError

/-- Sets the last error to a text from outside; a missing one changes nothing. -/
def setLastErrorBytes (message : Option Bytes) : Run κ Unit :=
  match message with
  | some bytes => setLastError (Utf8.lossy (untilZero bytes))
  | none => pure ()

/-- Calls an operation from outside. -/
def guarded (body : Run κ α) : Run κ (Answer α) := do
  match ← Run.outcome body with
  | .ok a => return .success a
  | .error fault =>
    setLastError fault.toError.message
    return .failure

/-- Calls an operation on cells from outside. -/
def guardedIncoming (body : Incoming κ α) : Incoming κ (Answer α) :=
  fun a w =>
    match body a w with
    | ((.ok x, a), w) => ((.ok (.success x), a), w)
    | ((.error fault, a), w) =>
      ((.ok .failure, a), { w with lastError := errorText fault.toError.message })

/-- A pointer that is needed is there. -/
def needPointer (given : Bool) : Except Error Unit :=
  if given then .ok () else .error .nullPointer

/-- A text from outside, which has to be there. -/
def needText (bytes : Option Bytes) : Except Error String :=
  match bytes with
  | some bytes => readText bytes
  | none => .error .nullPointer

/-- The object behind a handle, which has to be there. -/
def needObject (name : HandleName) (handle : Ref) : Except Error ObjId :=
  match handle with
  | some id => .ok id
  | none => .error (.nullHandle name)

/-- The object behind a handle, which has to be of a class. -/
def needInstance (name : HandleName) (cls : ObjectClass) (handle : Ref) : Run κ ObjId := do
  let id ← Run.ofExcept (needObject name handle)
  let _ ← Run.touch cls
  let w ← get
  if w.isInstance id cls then return id
  else Run.fail (.typeMismatch cls.key (w.typeKey id))

/-- A value as the result of a call from outside, which takes over its reference. -/
def exportValue (v : Value) : Run κ Cell := Run.ofExcept (Cell.ofResult v)

/-- A slot for the result of a callback, filled from a cell; the result takes a reference of its
own.  The number of results has to be one. -/
def setReturn (hasSlot hasValue hasCode : Bool) (c : Cell) : Incoming κ (Answer Value) :=
  guardedIncoming do
    Incoming.ofRun (Run.ofExcept (needPointer hasSlot))
    Incoming.ofRun (Run.ofExcept (needPointer hasValue))
    Incoming.ofRun (Run.ofExcept (needPointer hasCode))
    return (← Incoming.readCell c).asResult

/-- Makes a cell that came in as an argument into one that can be returned: an object in it gets a
reference of its own. -/
def argToReturn (hasValue hasCode : Bool) (c : Cell) : Incoming κ (Answer Cell) :=
  guardedIncoming do
    Incoming.ofRun (Run.ofExcept (needPointer hasValue))
    Incoming.ofRun (Run.ofExcept (needPointer hasCode))
    let v ← Incoming.readCell c
    match v.asResult with
    | .object tag id => return ⟨(Value.object tag id).typeCode, .object id⟩
    | _ => return c

end Boundary

end ObjectRuntime
