import ObjectRuntime.Session.Objects
set_option autoImplicit false

/-!
# Steps on containers

Arrays and maps are made from expressions, read, and changed in the register that holds them.  A
container that is read has to be one; what it holds is checked only where it is taken out.
-/

namespace ObjectRuntime.Session

/-- Any array. -/
def arrayRef : RefType := .named "Array" .array

/-- Any map. -/
def mapRef : RefType := .named "Map" .map

/-- The number of things in a container, whether there are none, and whether there is a container. -/
def size (count : Nat) (r : Ref) : Report :=
  .list [.count count, .flag (count == 0), .flag r.isSome]

/-- Shows a reference that an operation makes. -/
def giveMade (dest : Target) (body : Run SessionCode Ref) : Act Report := do
  giveRef dest (← ofRun body)

/-- Views of references. -/
def viewRefs (rs : List Ref) : Act (List Report) := rs.mapM fun r => view (.ofRef .object r)

/-! ## Arrays -/

/-- Evaluates expressions to references of a type. -/
def evalElements (t : RefType) : List Expr → Act (List Ref)
  | [] => pure []
  | e :: rest => do
    let r ← evalRef t e
    let rs ← releasingOnFault r.toList (evalElements t rest)
    return r :: rs

/-- A new array. -/
def makeArray (dest : Target) (elem : RefType) (es : List Expr) : Act Report := do
  let refs ← evalElements elem es
  giveMade dest (Arr.ofList refs)

/-- The element at an index. -/
def arrayItem (dest : Target) (elem : RefType) (i : Int) (r : Ref) : Act Report :=
  giveMade dest (Arr.get elem r i)

/-- The number of elements. -/
def arraySize (r : Ref) : Act Report := do return size ((← currentWorld).elements r).length r

/-- All elements. -/
def arrayItems (elem : RefType) (r : Ref) : Act Report := do
  return .list (← viewRefs (← ofRun (Arr.items elem r)))

/-- Changes the array in a register. -/
def changeArray (dest : Target) (name : String) (body : Ref → Run SessionCode Ref) : Act Report := do
  let (same, r, _) ← change name arrayRef fun r => do return (← body r, ())
  return .record [("in_place", .flag same), ("v", ← viewFor dest (.ofRef .object r))]

/-- Appends an element. -/
def push (dest : Target) (name : String) (elem : RefType) (e : Expr) : Act Report :=
  withRef elem e fun v =>
    changeArray dest name fun r => do
      Run.retainRef v
      Arr.push r v

/-- Replaces an element. -/
def setItem (dest : Target) (name : String) (elem : RefType) (i : Int) (e : Expr) : Act Report :=
  withRef elem e fun v =>
    changeArray dest name fun r => do
      Run.retainRef v
      Arr.set r i v

/-! ## Maps -/

/-- Evaluates keys and values to references of their types. -/
def evalPairs (key value : RefType) : List (Expr × Expr) → Act (List (Ref × Ref))
  | [] => pure []
  | (k, v) :: rest => do
    let k ← evalRef key k
    releasingOnFault k.toList do
      let v ← evalRef value v
      let rest ← releasingOnFault v.toList (evalPairs key value rest)
      return (k, v) :: rest

/-- A new map. -/
def makeMap (dest : Target) (key value : RefType) (es : List (Expr × Expr)) : Act Report := do
  let pairs ← evalPairs key value es
  giveMade dest (Dict.ofList pairs)

/-- The value under a key. -/
def mapItem (dest : Target) (value : RefType) (r key : Ref) : Act Report :=
  giveMade dest (Dict.get value r key)

/-- Whether there is an entry with the key. -/
def mapHas (r key : Ref) : Act Report := do return .flag (← ofRun (Dict.has r key))

/-- The number of entries. -/
def mapSize (r : Ref) : Act Report := do return size ((← currentWorld).entries r).length r

/-- All entries. -/
def mapItems (key value : RefType) (r : Ref) : Act Report := do
  let entries ← ofRun (Dict.items key value r)
  return .list (← entries.mapM fun (k, v) => do return .list (← viewRefs [k, v]))

/-- The number of entries, whether there are none, and whether one has the key. -/
def mapLookup (r key : Ref) : Act Report := do
  match r with
  | none => return .nothing
  | some _ =>
    let found ← ofRun (Dict.has r key)
    let count := ((← currentWorld).entries r).length
    return .list [.count count, .flag (count == 0), .flag found]

/-- Changes the map in a register. -/
def changeMap (dest : Target) (name : String) (body : Ref → Run SessionCode (Ref × Option Bool)) :
    Act Report := do
  let (same, r, removed) ← change name mapRef body
  return .record [("in_place", .flag same), ("removed", .ofOption .flag removed),
    ("v", ← viewFor dest (.ofRef .object r))]

/-- Puts a value under a key. -/
def insert (dest : Target) (name : String) (key value : RefType) (k v : Expr) : Act Report :=
  withRef key k fun k => withRef value v fun v =>
    changeMap dest name fun r => do
      Run.retainRef k
      Run.retainRef v
      return (← Dict.insert r k v, none)

/-- Removes the entry with a key. -/
def remove (dest : Target) (name : String) (key : RefType) (k : Expr) : Act Report :=
  withRef key k fun k =>
    changeMap dest name fun r => do
      let (r, removed) ← Dict.remove r k
      return (r, some removed)

/-! ## Boxes, strings and shapes -/

/-- Changes the content of the box in a register. -/
def setBox (name : String) (t : RefType) (content : BoxContent) : Act Report := do
  let (same, r, old) ← change name t fun r => do
    let old := Box.content? (← get) r content
    return (← Box.setValue r content, old)
  let new := Box.content? (← currentWorld) r content
  return .record [("in_place", .flag same), ("old", .ofOption .box old), ("new", .ofOption .box new)]

/-- The content of a string, which has to be there. -/
def stringContent (r : Ref) : Act String := do ofFallible (Blob.derefText (← currentWorld) r)

/-- All that can be asked of a string. -/
def describeString (r : Ref) : Act Report := do
  let s ← stringContent r
  return .record [("len", .count s.utf8ByteSize), ("is_empty", .flag s.isEmpty),
    ("bytes", .bytes (Utf8.encode s)), ("display", .text s)]

/-- Compares two strings. -/
def compareStrings (a b : Ref) : Act Report := do
  let s ← stringContent a
  let t ← stringContent b
  let order := compare s t
  return .record [("eq", .flag (s == t)), ("cmp", .order order), ("partial", .order order),
    ("eq_str", .flag (s == t)), ("lt", .flag (order == .lt)), ("same", .flag (a == b))]

/-- The hash of a string as a list of bytes. -/
def hashString (r : Ref) : Act Report := do
  return .word (Sip.hash (Sip.slice (Utf8.encode (← stringContent r))))

/-- The extents of a shape, which has to be there. -/
def extentsOf (r : Ref) : Act (List Int) := do ofFallible (Builtin.extents (← currentWorld) r)

/-- All that can be asked of a shape. -/
def describeShape (r : Ref) : Act Report := do
  let dims ← extentsOf r
  return .record [("len", .count dims.length), ("is_empty", .flag dims.isEmpty),
    ("display", .text (showInts dims)), ("slice", .numbers dims), ("again", .numbers dims),
    ("collected", .count dims.length)]

/-- The product of the extents. -/
def shapeProduct (r : Ref) : Act Report := do
  return .number (← ofFallible (Layout.elementCount (← extentsOf r)))

end ObjectRuntime.Session
