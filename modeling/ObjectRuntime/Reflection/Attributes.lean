import ObjectRuntime.Conversion
import ObjectRuntime.NameTable
set_option autoImplicit false

/-!
# Attributes of objects

An object of a reflected class shows its visible fields as attributes, and can be made from them.
Every attribute of the class has to be given once and no others may be given.

Objects are made by operations of type `Build κ α`, which hold every reference they obtain until
`Build.run` is done with them, whether or not they fail.  They also carry what is known of the nodes
of a graph while it is being read.
-/

namespace ObjectRuntime

variable {κ : Type}

/-! ## Reading -/

namespace World

/-- The value that shows a field: boxes stay objects. -/
def showField (w : World κ) (v : Value) : Value :=
  match v.object? with
  | some id => w.showRef (some id)
  | none => v

/-- The attributes of an object, those of its base classes first. -/
def attrs (w : World κ) (id : ObjId) : Except Error (List Attr) :=
  match w.schemaOf? id with
  | none => .error (.notReflectable (w.typeKey id))
  | some schema =>
    let values := ((w.payload? id).map schema.values).getD []
    .ok (List.zipWith (fun (f : Field) v => ⟨f.key, w.showField v, f.role = .definition⟩)
      schema.visible values)

/-- The object that is asked for its attributes. -/
def reflected (r : Ref) : Except Error ObjId :=
  match r with
  | some id => .ok id
  | none => .error (.nullHandle "ObjectRef")

/-- The value of an attribute. -/
def attr (w : World κ) (r : Ref) (key : String) : Except Error Value := do
  let id ← reflected r
  match (← w.attrs id).find? fun a => a.key == key with
  | some a => .ok a.value
  | none => .error (.attrMissing (w.typeKey id) key)

/-- The names of all attributes. -/
def attrNames (w : World κ) (r : Ref) : Except Error (List String) := do
  return (← w.attrs (← reflected r)).map Attr.key

end World

/-! ## Making objects -/

/-- What is known while objects are made: the nodes that have been read, those that are being read,
and the references that are held. -/
structure BuildState where
  finished : List (Nat × Ref)
  path : List Nat
  held : List ObjId

/-- An operation that makes objects. -/
abbrev Build (κ : Type) := ExceptT Fault (StateT BuildState (StateM (World κ)))

namespace Build

variable {α σ : Type}

/-- Runs an operation on the world. -/
def ofRun (body : Run κ α) : Build κ α :=
  fun s w =>
    let (answer, w) := body w
    ((answer, s), w)

/-- The world at this moment. -/
def world : Build κ (World κ) := ofRun get

/-- Fails with an error. -/
def fail (cause : Error) : Build κ α := throw (.error cause)

/-- Holds references that the operation owns. -/
def hold (ids : List ObjId) : Build κ Unit :=
  modify fun s => { s with held := ids ++ s.held }

/-- Runs an operation on the world and holds the reference that it makes. -/
def holding (body : Run κ Ref) : Build κ Ref := do
  let r ← ofRun body
  hold r.toList
  return r

/-- Makes an object out of references that are held. -/
def make (cls : ObjectClass) (payload : Payload κ) : Build κ Ref :=
  holding do
    Run.modifyHeap (·.retainAll payload.references)
    return some (← Run.create cls payload)

/-- Names the attribute in the error of its conversion. -/
def blame (typeKey key : String) (body : Build κ α) : Build κ α :=
  fun s w =>
    match body s w with
    | ((.error (.error cause), s), w) =>
      ((.error (.error (.attrConversion typeKey key cause)), s), w)
    | answer => answer

/-- The value of a field that is given as a value. -/
def fieldOf (t : ValueType) (v : Value) : Build κ Value := do
  let x ← ofRun (Run.decode t v)
  hold (t.references x)
  return t.fieldValue x

/-- The values of fields, each read from the attribute with its key.  What is left over is an
error. -/
def fieldsOf (typeKey : String) (read : ValueType → σ → Build κ Value) :
    List Field → List (String × σ) → Build κ (List Value)
  | [], rest =>
    match NameTable.sortedNames rest with
    | key :: _ => fail (.attrUnknown typeKey key)
    | [] => pure []
  | f :: fs, given =>
    match given.lookup f.key with
    | none => fail (.attrMissing typeKey f.key)
    | some a => do
      let v ← blame typeKey f.key (read f.type a)
      return v :: (← fieldsOf typeKey read fs (NameTable.erase f.key given))

/-- Makes an object of the class with a key. -/
def object (typeKey : String) (read : ValueType → σ → Build κ Value)
    (given : List (String × σ)) : Build κ Ref := do
  let index ← ofRun (Run.query (·.types.indexOf typeKey))
  ofRun Run.useReflection
  match (← world).schemaAt? index with
  | none => fail (.notReflectable typeKey)
  | some schema =>
    let values ← fieldsOf typeKey read schema.visible given
    make schema.cls (schema.payload values)

/-- Makes an object and gives up all other references. -/
def run (body : Build κ Ref) : Run κ Ref :=
  fun w =>
    match body ⟨[], [], []⟩ w with
    | ((.ok r, s), w) =>
      (.ok r, { w with heap := s.held.foldl Heap.release (w.heap.retainAll r.toList) })
    | ((.error fault, s), w) =>
      (.error fault, { w with heap := s.held.foldl Heap.release w.heap })

end Build

/-- Makes an object of the class with a key from the values of its attributes.  Of two values for
one attribute the later counts. -/
def createObject (typeKey : String) (given : List (String × Value)) : Run κ Ref :=
  Build.run (Build.object typeKey Build.fieldOf (NameTable.ofList given))

end ObjectRuntime
