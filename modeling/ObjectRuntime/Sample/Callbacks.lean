import ObjectRuntime.Boundary.Entry
import ObjectRuntime.Sample.Functions
set_option autoImplicit false

/-!
# Sample callbacks

Functions on the other side of the boundary.  A callback reads its arguments from cells, may set
the last error, sets its result through an entry point of the runtime, and ends with a status.  A
backend function follows the older convention, in which the result is written straight into a cell.
-/

namespace ObjectRuntime

/-- The sample callbacks. -/
inductive Callback where
  | add | firstArg | string | failing | hostError | codes | take | badCode | nullReturn | toReturn
  deriving DecidableEq, Repr

/-- The sample functions of the system library. -/
inductive Backend where
  | double | nothing | string | badCode
  deriving DecidableEq, Repr

/-- The code of the functions of a program that uses samples. -/
inductive SampleCode where
  | function (f : SampleFunction) (name : String)
  | callback (c : Callback) (offset : I64)
  | backend (b : Backend)
  deriving DecidableEq, Repr

namespace Callback

/-- The callback with a name. -/
def ofName? : String → Option Callback
  | "add" => some .add
  | "arg0" => some .firstArg
  | "str" => some .string
  | "fail" => some .failing
  | "env" => some .hostError
  | "codes" => some .codes
  | "take" => some .take
  | "badcode" => some .badCode
  | "nullret" => some .nullReturn
  | "toret" => some .toReturn
  | _ => none

variable {κ : Type}

/-- How a callback ends: with a result, with the last error, or with an error of the host. -/
inductive Ending where
  | result (v : Value)
  | lastError
  | hostError
  deriving DecidableEq, Repr

/-- Sets the last error and ends with it. -/
def failWith (message : String) : Incoming κ Ending := do
  Incoming.ofRun (Boundary.setLastError message)
  return .lastError

/-- Returns what is in a cell. -/
def returnCell (c : Cell) : Incoming κ Ending := do
  match ← Boundary.setReturn true true true c with
  | .success v => return .result v
  | .failure => return .lastError

/-- A cell with a new string. -/
def newString (s : String) : Incoming κ ObjId :=
  Incoming.ofRun (Run.create .string (.text s))

/-- What the callback does. -/
def run (offset : I64) (c : Callback) : Incoming κ Ending := do
  let cells := (← get).cells
  match c with
  | .add =>
    match cells with
    | [a, b] =>
      let sum := (a.content.toI64.add b.content.toI64).add offset
      returnCell ⟨TypeCode.int, .ofI64 sum⟩
    | _ => failWith "add expects two arguments"
  | .firstArg =>
    match cells with
    | [] => return .result .null
    | cell :: _ => returnCell cell
  | .string =>
    let id ← newString "from C"
    let ending ← returnCell ⟨TypeCode.object, .object id⟩
    Incoming.ofRun (Run.release id)
    return ending
  | .failing => failWith s!"callback failed with {cells.length} args"
  | .hostError => return .hostError
  | .codes =>
    let codes := String.intercalate "," (cells.map fun cell => toString cell.code)
    returnCell ⟨TypeCode.text, .text (Utf8.encode codes)⟩
  | .take =>
    match cells with
    | [cell] =>
      if cell.code = TypeCode.moved then
        let v ← Incoming.readCell cell
        Incoming.ofRun (Run.releaseAll v.object?.toList)
        return .result .null
      else failWith "take expects one rvalue"
    | _ => failWith "take expects one rvalue"
  | .badCode => returnCell ⟨99, .zero⟩
  | .nullReturn =>
    match ← Boundary.setReturn false true true ⟨TypeCode.int, .zero⟩ with
    | .success v => return .result v
    | .failure => return .lastError
  | .toReturn =>
    match cells with
    | [cell] =>
      match ← Boundary.argToReturn true true cell with
      | .failure => return .lastError
      | .success exported =>
        let ending ← returnCell exported
        match exported.content with
        | .object id => Incoming.ofRun (Run.release id)
        | _ => pure ()
        return ending
    | _ => return .lastError

/-- Calls the callback with arguments that it may take over. -/
def call (offset : I64) (c : Callback) (vs : List Value) : Run κ Value := do
  match ← Run.withArguments vs (c.run offset) with
  | .result v => return v
  | .lastError => Run.fail (.callFailed (← get).lastError)
  | .hostError => Run.fail .hostErrorSet

end Callback

namespace Backend

variable {κ : Type}

/-- The function with a name. -/
def ofName? : String → Option Backend
  | "double" => some .double
  | "none" => some .nothing
  | "string" => some .string
  | "badcode" => some .badCode
  | _ => none

/-- What the function does: the cell of its result, whose reference goes to the caller, or nothing
if it fails. -/
def run (b : Backend) : Incoming κ (Option Cell) := do
  let cells := (← get).cells
  match b with
  | .double =>
    match cells with
    | [cell] =>
      if cell.code = TypeCode.int then
        let n := cell.content.toI64
        return some ⟨TypeCode.int, .ofI64 (n.add n)⟩
      else
        Incoming.ofRun (Boundary.setLastError "double expects one integer")
        return none
    | _ =>
      Incoming.ofRun (Boundary.setLastError "double expects one integer")
      return none
  | .nothing => return some ⟨TypeCode.null, .zero⟩
  | .string => return some ⟨TypeCode.object, .object (← Callback.newString "backend")⟩
  | .badCode => return some ⟨-5, .zero⟩

/-- Calls the function.  The reference in its result is taken over. -/
def call (b : Backend) (vs : List Value) : Run κ Value :=
  Run.withArguments vs do
    match ← b.run with
    | none => Incoming.fail (.callFailed (← Incoming.ofRun Boundary.lastError))
    | some cell => Incoming.readReturned cell

end Backend

namespace SampleCode

/-- A sample function without a name. -/
def anonymous (f : SampleFunction) : SampleCode := .function f anonymousName

/-- Calls the code. -/
def call (invoke : Invoke (FunctionCode SampleCode)) (code : SampleCode) (vs : List Value) :
    Run (FunctionCode SampleCode) Value := do
  match code with
  | .function f name => f.run invoke name vs
  | .callback c offset =>
    vs.forM Run.retainValue
    c.call offset vs
  | .backend b =>
    vs.forM Run.retainValue
    b.call vs

instance : Callable SampleCode := ⟨call⟩

end SampleCode

end ObjectRuntime
