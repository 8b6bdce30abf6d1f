import ObjectRuntime.Container.Array
import ObjectRuntime.Container.Map
import ObjectRuntime.Text.Quoted
set_option autoImplicit false

/-!
# Texts of references

References are shown for inspection according to their static type: strings by their content,
containers by what they hold, tensors by their shape, and all other objects by the key of their
type, since the place of an object is not part of a program's answer.
-/

namespace ObjectRuntime

variable {κ : Type}

namespace World

/-- The type of an object and a stand-in for its place. -/
def showObject (w : World κ) (id : ObjId) : String := w.typeKey id ++ AddressText.mask

/-- The header of an object: its type and its reference count. -/
def showHeader (w : World κ) (id : ObjId) : String :=
  let key := Quoted.quote (w.typeKey id)
  let index := w.typeIndex id
  let count := w.heap.count id
  s!"Object \x7b type_key: {key}, type_index: {index}, ref_count: {count} \x7d"

/-- A reference of a named class. -/
def showNamed (w : World κ) (name : String) (r : Ref) : String :=
  match r with
  | none => name ++ "(None)"
  | some id => name ++ "(Some(" ++ w.showObject id ++ "))"

/-- A string, quoted. -/
def showString (w : World κ) (r : Ref) : String :=
  match r with
  | none => "String(null)"
  | some id => Quoted.quote ((w.text? id).getD "")

/-- A function. -/
def showFunction (w : World κ) (r : Ref) : String :=
  match r with
  | none => "Function(null)"
  | some id => "Function(" ++ w.showObject id ++ ")"

/-- The shape, data type and device of a tensor. -/
def showTensor (t : Tensor) : String :=
  let shape := showInts t.shape
  let device : Device := ⟨.cpu, MachineInt.wrap .usize t.unit.val⟩
  s!"NDArray(shape={shape}, dtype={t.dtype}, device={device})"

/-- A reference to a tensor. -/
def showTensorRef (w : World κ) (r : Ref) : String :=
  match r.bind w.payload? with
  | some (.tensor t) => showTensor t
  | _ => "NDArray(null)"

/-- A reference of a static type.  What a container holds is checked as it is read. -/
def showRefAs (w : World κ) : RefType → Ref → Except Fault String
  | .named name cls, r =>
    .ok <|
      if cls = .string then w.showString r
      else if cls = .function then w.showFunction r
      else if cls = .tensor then w.showTensorRef r
      else w.showNamed name r
  | .array elem, r => do
    let shown ← (← Arr.iterate w elem r).mapM (w.showRefAs elem)
    return "[" ++ String.intercalate ", " shown ++ "]"
  | .map key value, r => do
    let shown ← (← Dict.iterate w key value r).mapM fun (k, v) => do
      return (← w.showRefAs key k) ++ ": " ++ (← w.showRefAs value v)
    return "\x7b" ++ String.intercalate ", " shown ++ "\x7d"

end World

/-- The text of a reference, which is asked whether it is of the static type. -/
def Run.showRef (t : RefType) (r : Ref) : Run κ String := do
  match t with
  | .map key value => discard (Dict.items key value r)
  | t => askType t r
  ofFallible ((← get).showRefAs t r)

end ObjectRuntime
