import ObjectRuntime.Membership
set_option autoImplicit false

/-!
# Conversion of values

`decode` turns a value into a member of a type and `encode` turns a member into a value.  Boxed
numbers are taken out of their boxes before a number is asked for, and numbers and texts are put
into new objects where a reference is asked for.  A container that holds what its static type says
is passed on as it is; otherwise it is converted element by element into a new one.
-/

namespace ObjectRuntime

variable {κ : Type}

namespace World

/-! ## Plain values -/

/-- The mismatch between a value and a wanted type. -/
def mismatchWith (w : World κ) (v : Value) (expected : String) : Error :=
  .typeMismatch expected (w.valueTypeName v)

/-- A truth value as a number. -/
def boolNumber (b : Bool) : Int := if b then 1 else 0

/-- The value as a number in the range of a machine type. -/
def decodeInt (w : World κ) (k : IntKind) (v : Value) : Except Error (MachineInt k) :=
  let inRange (n : Int) : Except Error (MachineInt k) :=
    match MachineInt.ofInt? k n with
    | some m => .ok m
    | none => .error (.outOfRange (toString n) k.name)
  match w.unboxed v with
  | .int n => inRange n.val
  | .bool b => inRange (boolNumber b)
  | other => .error (w.mismatchWith other k.name)

/-- The value as a floating point number. -/
def decodeDouble (w : World κ) (v : Value) : Except Error Double :=
  match w.unboxed v with
  | .float x => .ok x
  | .int n => .ok (Double.ofInt n.val)
  | .bool b => .ok (Double.ofInt (boolNumber b))
  | other => .error (w.mismatchWith other ValueType.f64.name)

/-- The value as a truth value. -/
def decodeBool (w : World κ) (v : Value) : Except Error Bool :=
  match w.unboxed v with
  | .bool b => .ok b
  | .int n => .ok (n.val ≠ 0)
  | other => .error (w.mismatchWith other ValueType.bool.name)

/-- The content of the string that the value carries. -/
def carriedText? (w : World κ) (v : Value) : Option String := v.object?.bind w.text?

/-- The value as a text. -/
def decodeText (w : World κ) (v : Value) : Except Error String :=
  match w.carriedText? v with
  | some s => .ok s
  | none =>
    match v with
    | .text s => .ok s
    | .bytes b =>
      match Utf8.decode? b with
      | some s => .ok s
      | none => .error .notUtf8
    | .dataType d => .ok d.toText
    | other => .error (w.mismatchWith other ValueType.text.name)

/-- The value as bytes. -/
def decodeBytes (w : World κ) (v : Value) : Except Error Bytes :=
  match v with
  | .bytes b => .ok b
  | .text s => .ok (Utf8.encode s)
  | other => .error (w.mismatchWith other ValueType.bytes.name)

/-- Reads the text of a data type. -/
def parseDataType (s : String) : Except Error DataType :=
  match DataType.parse s with
  | .ok d => .ok d
  | .error cause => .error (.dataType cause)

/-- The value as a data type. -/
def decodeDataType (w : World κ) (v : Value) : Except Error DataType :=
  match w.carriedText? v with
  | some s => parseDataType s
  | none =>
    match v with
    | .dataType d => .ok d
    | .text s => parseDataType s
    | other => .error (w.mismatchWith other ValueType.dataType.name)

/-- The value as a device that crossed a boundary. -/
def decodeRawDevice (w : World κ) (v : Value) : Except Error RawDevice :=
  match v with
  | .device d => .ok d
  | other => .error (w.mismatchWith other ValueType.rawDevice.name)

/-- The device that crossed a boundary. -/
def deviceOfRaw (d : RawDevice) : Except Error Device :=
  match Device.ofRaw d with
  | .ok d => .ok d
  | .error cause => .error (.device cause)

/-- The value as an address. -/
def decodeHandle (w : World κ) (v : Value) : Except Error UInt64 :=
  match v with
  | .handle address => .ok address
  | .null => .ok 0
  | other => .error (w.mismatchWith other ValueType.handle.name)

/-- The value as the address of a tensor. -/
def decodeTensorHandle (w : World κ) (v : Value) : Except Error UInt64 :=
  match v with
  | .tensorHandle address => .ok address
  | other => .error (w.mismatchWith other ValueType.tensorHandle.name)

/-- The contents of objects that can stand for a plain value, best first, with their classes. -/
def boxings : Value → List (ObjectClass × Payload κ)
  | .int n => [(.boxInt, .boxInt n), (.boxFloat, .boxFloat (Double.ofInt n.val))]
  | .bool b => [(.boxBool, .boxBool b), (.boxInt, .boxInt (MachineInt.wrap .i64 (boolNumber b)))]
  | .float x => [(.boxFloat, .boxFloat x)]
  | .text s => [(.string, .text s)]
  | _ => []

end World

/-! ## Entries of maps -/

/-- Puts a value under a key.  An entry with the same key keeps its place and its own key; a new
one goes last. -/
def insertEntry (same : Ref → Ref → Bool) (key value : Ref) :
    List (Ref × Ref) → List (Ref × Ref)
  | [] => [(key, value)]
  | (k, v) :: rest =>
    if same k key then (k, value) :: rest else (k, v) :: insertEntry same key value rest

namespace Run

/-- Catches an error, but lets a panic pass. -/
def attempt {α : Type} (body : Run κ α) : Run κ (Except Error α) :=
  fun w =>
    match body w with
    | (.ok a, w) => (.ok (.ok a), w)
    | (.error (.error cause), w) => (.ok (.error cause), w)
    | (.error fault, w) => (.error fault, w)

/-- References of the given static type accept objects of the class. -/
def accepts (boxed cls : ObjectClass) : Run κ Bool := do
  let child ← touch boxed
  let ancestor ← touch cls
  return (← get).types.derivedFrom child ancestor

/-- The first of some contents whose class is accepted, in a new object of that class. -/
def createAccepted (cls : ObjectClass) : List (ObjectClass × Payload κ) → Run κ Ref
  | [] => return none
  | (boxed, payload) :: rest => do
    if ← accepts boxed cls then return some (← create boxed payload)
    else createAccepted cls rest

/-- Passes on an object of a class and gives up any other. -/
def memberOf (cls : ObjectClass) (id : ObjId) : Run κ Ref :=
  releasingOnFault [id] do
    let _ ← touch cls
    let w ← get
    if w.isInstance id cls then return some id
    else fail (.typeMismatch cls.key (w.typeKey id))

/-- The object of a class that a value stands for: the object it carries, or a new box or string
that holds it.  A new object is checked as well: a final class has no members of other classes, even
if the table has types below it.  The reference in the answer is the caller's. -/
def objectOf (cls : ObjectClass) (v : Value) : Run κ Ref := do
  match v with
  | .null => return none
  | .object _ id =>
    retain id
    memberOf cls id
  | v =>
    match ← createAccepted cls (World.boxings v) with
    | some id => memberOf cls id
    | none => fail ((← get).mismatchWith v cls.key)

/-- Converts the elements of an array one by one. -/
def decodeElements (convert : Value → Run κ Ref) (elems : List Ref) : Run κ (List Ref) :=
  mapOwned Option.toList (fun r => do convert (← travel r false)) elems

/-- Converts an entry, its key first. -/
def decodeEntry (convertKey convertValue : Value → Run κ Ref) (entry : Ref × Ref) :
    Run κ (Ref × Ref) := do
  let key ← convertKey (← travel entry.1 false)
  let value ← releasingOnFault key.toList do convertValue (← travel entry.2 false)
  return (key, value)

/-- Collects entries, of which later ones replace the values of earlier ones with the same key.
The references that are not kept are given up. -/
def collectEntries (pairs : List (Ref × Ref)) : Run κ (List (Ref × Ref)) := do
  let all := pairs.flatMap fun (k, v) => k.toList ++ v.toList
  releasingOnFault all (pairs.forM fun (k, _) => askKey k)
  let w ← get
  let entries := pairs.foldl (fun es (k, v) => insertEntry w.sameKey k v es) []
  let kept := entries.flatMap fun (k, v) => k.toList ++ v.toList
  releaseAll (kept.foldl List.erase all)
  return entries

/-- A conversion to a container type: a container that passes the check is passed on; otherwise
`rebuild` makes a new one, and if that fails the mismatch is reported. -/
def decodeContainer (t : RefType) (v : Value) (rebuild : ObjId → Run κ ObjId) : Run κ Ref := do
  match ← objectOf .root v with
  | none => return none
  | some id =>
    let _ ← releasingOnFault [id] (touch t.cls)
    let w ← get
    if !w.isInstance id t.cls then
      release id
      fail (.typeMismatch t.cls.key (w.typeKey id))
    else
      releasingOnFault [id] (askType t (some id))
      match (← get).mismatch? t (some id) with
      | none => return some id
      | some m =>
        match ← releasing [id] (attempt (rebuild id)) with
        | .ok fresh => return some fresh
        | .error _ => fail (.typeMismatch t.typeName m)

/-- Converts a value to a reference of a static type. -/
def decodeRef : RefType → Value → Run κ Ref
  | .named _ cls, v => objectOf cls v
  | .array elem, v =>
    decodeContainer (.array elem) v fun id => do
      let elems ← decodeElements (decodeRef elem) ((← get).elements (some id))
      create .array (.array elems)
  | .map key value, v =>
    decodeContainer (.map key value) v fun id => do
      let pairs ← mapOwned (fun (e : Ref × Ref) => e.1.toList ++ e.2.toList)
        (decodeEntry (decodeRef key) (decodeRef value)) ((← get).entries (some id))
      create .map (.map (← collectEntries pairs))

/-- Converts a value to a member of a type.  The references in the member are the caller's. -/
def decode : (t : ValueType) → Value → Run κ t.Carrier
  | .int k, v => queryAsking travelClasses v (·.decodeInt k v)
  | .f32, v => do return (← queryAsking travelClasses v (·.decodeDouble v)).toSingle
  | .f64, v => queryAsking travelClasses v (·.decodeDouble v)
  | .bool, v => queryAsking travelClasses v (·.decodeBool v)
  | .text, v => queryAsking [.string] v (·.decodeText v)
  | .bytes, v => query (·.decodeBytes v)
  | .dataType, v => queryAsking [.string] v (·.decodeDataType v)
  | .device, v => query fun w => do World.deviceOfRaw (← w.decodeRawDevice v)
  | .rawDevice, v => query (·.decodeRawDevice v)
  | .handle, v => query (·.decodeHandle v)
  | .tensorHandle, v => query (·.decodeTensorHandle v)
  | .unit, _ => pure ()
  | .any, v => do
    retainValue v
    return v.asResult
  | .ref r, v => decodeRef r v
  | .option t, v => if v.isNull then pure none else some <$> decode t v
  | .variant a b, v => do
    let actual := (← get).valueTypeName v
    match ← attempt (decode a v) with
    | .ok x => return .inl x
    | .error _ =>
      match ← attempt (decode b v) with
      | .ok x => return .inr x
      | .error _ => fail (.typeMismatch ("Variant[" ++ a.name ++ ", " ++ b.name ++ "]") actual)

/-- The value that carries a reference; a box is given up for the number in it. -/
def encodeRef (r : Ref) (moved : Bool) : Run κ Value := do
  let v ← releasingOnFault r.toList (travel r moved)
  if v.object?.isNone then releaseAll r.toList
  return v

/-- Converts a member of a type to a value.  The references in the member go over to the value; a
number that is too large for a value is a broken promise. -/
def encode : (t : ValueType) → t.Carrier → Run κ Value
  | .int _, n =>
    match MachineInt.ofInt? .i64 n.val with
    | some m => pure (.int m)
    | none => panic (.unsignedTooLarge n.val)
  | .f32, x => pure (.float x.toDouble)
  | .f64, x => pure (.float x)
  | .bool, b => pure (.bool b)
  | .text, s => pure (.text s)
  | .bytes, b => pure (.bytes b)
  | .dataType, d => pure (.dataType d)
  | .device, d => pure (.device d.toRaw)
  | .rawDevice, d => pure (.device d)
  | .handle, address => pure (.handle address)
  | .tensorHandle, address => pure (.tensorHandle address)
  | .unit, _ => pure .null
  | .any, v => pure v.asResult
  | .ref _, r => encodeRef r false
  | .option _, none => pure .null
  | .option t, some x => encode t x
  | .variant a _, .inl x => encode a x
  | .variant _ b, .inr x => encode b x

end Run

end ObjectRuntime
