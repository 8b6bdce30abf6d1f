import ObjectRuntime.Boundary.Cell
import ObjectRuntime.World
set_option autoImplicit false

/-!
# Arguments in cells

A caller outside the runtime, or one inside it that calls code outside, puts the arguments into
cells.  The cells own what they refer to; moved objects lie in slots of their own.  The callee reads
cells, and each value that it reads owns a reference: a new one for an object that was passed, and
the one in the slot, which becomes empty, for an object that was moved.  Whatever happens, what is
left in the cells is given up after the call.
-/

namespace ObjectRuntime

/-- The cells of one call, the references they own and the slots of moved objects. -/
structure Arguments where
  cells : List Cell
  held : List ObjId
  slots : List Ref
  deriving DecidableEq, Repr

namespace Arguments

variable {κ α : Type}

/-- No arguments. -/
def empty : Arguments := ⟨[], [], []⟩

/-- Cells that own nothing. -/
def ofCells (cells : List Cell) : Arguments := ⟨cells, [], []⟩

/-- All references that the cells own. -/
def references (a : Arguments) : List ObjId := a.slots.reduceOption ++ a.held

/-- Adds a cell for a value. -/
def add (a : Arguments) (v : Value) : Except Error Arguments := do
  let cell ← Cell.ofValue a.slots.length v
  match v with
  | .object .moved id => return { a with cells := a.cells ++ [cell], slots := a.slots ++ [some id] }
  | .object _ id => return { a with cells := a.cells ++ [cell], held := a.held ++ [id] }
  | _ => return { a with cells := a.cells ++ [cell] }

/-- What there is when a value has no cell: the cells of the values before it, and the values from
it on. -/
structure Unfilled where
  cause : Error
  filled : Arguments
  rest : List Value

/-- The references of all values. -/
def Unfilled.references (u : Unfilled) : List ObjId :=
  u.rest.filterMap Value.object? ++ u.filled.references

/-- Adds cells for values from left to right. -/
def addAll (a : Arguments) : List Value → Except Unfilled Arguments
  | [] => .ok a
  | v :: rest =>
    match a.add v with
    | .ok a => a.addAll rest
    | .error cause => .error ⟨cause, a, v :: rest⟩

/-- The cells of values. -/
def ofValues (vs : List Value) : Except Unfilled Arguments := empty.addAll vs

end Arguments

/-- What code on the other side of the boundary does with its arguments. -/
abbrev Incoming (κ : Type) := ExceptT Fault (StateT Arguments (StateM (World κ)))

namespace Incoming

variable {κ α : Type}

/-- Runs an operation on the world. -/
def ofRun (body : Run κ α) : Incoming κ α :=
  fun a w =>
    let (answer, w) := body w
    ((answer, a), w)

/-- Fails with an error. -/
def fail (cause : Error) : Incoming κ α := throw (.error cause)

/-- Runs an operation and gives up references if it fails. -/
def releasingOnFault (ids : List ObjId) (body : Incoming κ α) : Incoming κ α :=
  fun a w =>
    match body a w with
    | ((.error fault, a), w) => ((.error fault, a), { w with heap := ids.foldl Heap.release w.heap })
    | answer => answer

/-- The reference that a value read from a cell owns: a new one, unless the object is moved out of
its slot. -/
def own (c : Cell) (v : Value) : Incoming κ Unit :=
  match v, c.content with
  | .object .moved _, .slot index => modify fun a => { a with slots := a.slots.set index none }
  | _, _ => ofRun (Run.retainValue v)

/-- Reads a cell.  The value owns a reference. -/
def readCell (c : Cell) : Incoming κ Value := do
  match c.read (← get).slots with
  | .error cause => fail cause
  | .ok v =>
    own c v
    return v

/-- Reads cells from left to right.  If one of them cannot be read, the values read before are given
up. -/
def readCells : List Cell → Incoming κ (List Value)
  | [] => pure []
  | c :: rest => do
    let v ← readCell c
    let vs ← releasingOnFault v.object?.toList (readCells rest)
    return v :: vs

/-- Reads the cell of a result, whose reference is taken over. -/
def readReturned (c : Cell) : Incoming κ Value := do
  let v ← readCell c
  ofRun (Run.releaseAll v.object?.toList)
  return v.asResult

end Incoming

namespace Run

variable {κ α : Type}

/-- Runs code on cells and gives up what is left in them. -/
def withCells (a : Arguments) (body : Incoming κ α) : Run κ α :=
  fun w =>
    let ((answer, a), w) := body a w
    (answer, { w with heap := a.references.foldl Heap.release w.heap })

/-- Runs code on the cells of values, whose references are taken over. -/
def withArguments (vs : List Value) (body : Incoming κ α) : Run κ α := do
  match Arguments.ofValues vs with
  | .ok a => withCells a body
  | .error unfilled =>
    releaseAll unfilled.references
    fail unfilled.cause

/-- Reads the cell of a result. -/
def readReturned (c : Cell) : Run κ Value :=
  withCells (Arguments.ofCells [c]) (Incoming.readReturned c)

end Run

end ObjectRuntime
