import ObjectRuntime.Session.Values
set_option autoImplicit false

/-!
# Steps across the boundary

Entry points are called with handles, and handles are set to what they answer.  A call that fails
answers with the last error.  The host and its callbacks are here too.
-/

namespace ObjectRuntime.Session

variable {α : Type}

/-! ## Answers -/

/-- The answer of a call from outside. -/
def status (answer : Answer α) (out : α → Act Report) : Act Report := do
  match answer with
  | .success a => return .record [("status", .number 0), ("out", ← out a)]
  | .failure =>
    return .record [("status", .number (-1)), ("last_error", .shown (← currentWorld).lastError)]

/-- Calls from outside. -/
def callStatus (body : Run SessionCode (Answer α)) (out : α → Act Report) : Act Report := do
  status (← ofRun body) out

/-- An answer without content. -/
def nothing (_ : α) : Act Report := pure .nothing

/-- A call from outside whose failure is an error. -/
def insist (body : Run SessionCode (Answer α)) : Act Report := do
  match ← ofRun body with
  | .success _ => return .nothing
  | .failure => fail (.callFailed (← currentWorld).lastError)

/-- The last error, from either side. -/
def lastErrors : Act Report := do
  let last := Report.shown (← currentWorld).lastError
  return .list [last, last]

/-- Sets the last error. -/
def setLastError (message : Option Bytes) : Act Report := do
  ofRun (Boundary.setLastErrorBytes message)
  return .shown (← currentWorld).lastError

/-! ## Handles -/

/-- Sets a handle to what a call answers, if that is something. -/
def answerHandle (name : String) (h : Option Handle) : Act Report := do
  match h with
  | some h => setHandle name h
  | none => pure ()
  return .record [("null", .flag h.isNone)]

/-- Sets a handle to the object that a call answers. -/
def answerObject (name : String) (r : Ref) : Act Report := answerHandle name (r.map .object)

/-- Gives a reference of a value's object to a handle. -/
def handOut (name : String) (e : Expr) : Act Report := do
  let _ ← answerObject name (← evalRef .object e)
  return .nothing

/-- The reference count of the object behind a handle. -/
def handleCount (name : Option String) : Act Report := do
  let w ← currentWorld
  return .ofOption (fun id => .count (w.heap.count id)) (← objectHandle name)

/-- Shows the object behind a handle as a value with a reference of its own. -/
def giveHandle (dest : Target) (tag : ObjectTag) (name : Option String) : Act Report := do
  let r ← objectHandle name
  ofRun (Run.retainRef r)
  give dest (.ofRef tag r)

/-- Gives up a reference of a handle, which is forgotten unless it is kept. -/
def freeHandle (name : Option String) (keep : Bool) : Act Report := do
  let r ← objectHandle name
  match name with
  | some name => if !keep then forgetHandle name
  | none => pure ()
  callStatus (Boundary.freeHandle r) nothing

/-! ## Functions -/

/-- The arguments of a call: values of expressions, or cells that own nothing. -/
abbrev CallArguments := List Expr ⊕ List Cell

/-- Runs code on the cells of arguments. -/
def withArguments (args : CallArguments) (body : Incoming SessionCode α) : Act α := do
  match args with
  | .inl es => do
    let vs ← evalAll es
    ofRun (Run.withArguments vs body)
  | .inr cells => ofRun (Run.withCells (Arguments.ofCells cells) body)

/-- Calls the function behind a handle with arguments, all of them unless a number is given. -/
def callHandle (dest : Target) (name : Option String) (args : CallArguments) (count : Option Int)
    (hasCells outValue outCode : Bool) : Act Report := do
  let f ← objectHandle name
  let answer ← withArguments args do
    let all : Int := (← get).cells.length
    Boundary.callFunction outValue outCode f (count.getD all) hasCells
  status answer fun c => do
    let v ← ofRun (Run.readReturned c)
    return .record [("code", .number c.code), ("v", ← give dest v)]

/-- A new function for a callback, with or without a finalizer. -/
def createFunction (handle : String) (c : Option Callback) (offset : I64) (hasFinalizer out : Bool) :
    Act Report := do
  let serial ← ofRun Run.freshSerial
  let finalizer := if hasFinalizer then some (Hook.finalizer serial) else none
  let code := c.map fun c => .program (.callback c offset)
  callStatus (Boundary.createFunction code finalizer out) (answerObject handle)

/-- How often hooks of finalizers have run. -/
def finalizersRun : Act Report := do
  let isFinalizer (h : Hook) : Bool := match h with
    | .finalizer _ => true
    | .deleter _ => false
  return .count ((← currentWorld).heap.hookCount isFinalizer)

/-- Passes the cell of a value to an entry point. -/
def withCell (e : Expr) (body : Cell → Incoming SessionCode (Answer α)) : Act (Answer α) :=
  withArguments (.inl [e]) do
    match (← get).cells with
    | cell :: _ => body cell
    | [] => return .failure

/-- Makes an argument into something that can be returned: the codes before and after, and the
value. -/
def argToReturn (dest : Target) (hasValue hasCode : Bool) (e : Expr) : Act Report := do
  let answer ← withCell e fun cell => do
    match ← Boundary.argToReturn hasValue hasCode cell with
    | .success changed => return .success (cell.code, changed)
    | .failure => return .failure
  status answer fun (before, cell) => do
    let shown ← give dest (← readCell cell)
    match cell.content with
    | .object id => ofRun (Run.release id)
    | _ => pure ()
    return .record [("before", .number before), ("after", .number cell.code), ("v", shown)]

/-- Fills the slot for the result of a callback from an argument. -/
def setReturn (dest : Target) (hasSlot hasValue hasCode : Bool) (e : Expr) : Act Report := do
  status (← withCell e (Boundary.setReturn hasSlot hasValue hasCode)) (give dest)

/-! ## Tensors -/

/-- Copies one tensor over another. -/
def copyHandles (source target : Option String) : Act Report := do
  let origin ← tensorHandle source
  let dest ← tensorHandle target
  callStatus (Boundary.copyTensor origin dest) fun changed => do
    match changed, target with
    | .plain t, some name => setHandle name (.plain t)
    | _, _ => pure ()
    return .nothing

/-- Makes a tensor over lent memory, which is no longer the caller's then. -/
def takeManaged (handle : String) (source : Option String) (out : Bool) : Act Report := do
  callStatus (Boundary.fromManaged (← managedHandle source) out) fun r => do
    source.forM forgetHandle
    answerObject handle r

/-- Tells the lender that lent memory is no longer needed. -/
def giveBackManaged (name : Option String) : Act Report := do
  match ← managedHandle name with
  | some m =>
    ofRun m.giveBack
    name.forM forgetHandle
  | none => pure ()
  return .nothing

/-- The first bytes of the memory of a tensor. -/
def memoryOf (name : Option String) (count : Nat) : Act Report := do
  match ← tensorHandle name with
  | some h => return .bytes ((← ofRun (Boundary.viewTensor h)).data.take count)
  | none => return .nothing

/-! ## The host -/

/-- The counters of the host. -/
def hostState : Act Report := do return (← currentWorld).host.report

/-- Changes the host, which may fail, and answers with its counters. -/
def changeHost (f : CountingHost → CountingHost × Except Error Unit) : Act Report := do
  let (host, answer) := f (← currentWorld).host
  modify fun s => { s with world.host := host }
  ofRun (Run.ofExcept answer)
  hostState

/-- Registers an entry point of the host. -/
def registerCallback (name : String) (callback : Option HostCallback) : Act Report := do
  let host ← query (·.host.register name callback)
  changeHost fun _ => (host, .ok ())

end ObjectRuntime.Session
