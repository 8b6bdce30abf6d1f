import ObjectRuntime.Conversion
import ObjectRuntime.Text.Address
set_option autoImplicit false

/-!
# Maps

A map is a reference to an object with a list of entries in the order of insertion, or to nothing,
which counts as an empty map.  `insert` and `remove` take the map over and give back the changed
one, which is copied first unless the caller's reference was the only one.
-/

namespace ObjectRuntime.Dict

variable {κ : Type}

/-- How a key is shown: a string as it is, another object by its type. -/
def showKey (w : World κ) (key : Ref) : String :=
  match key with
  | none => "null"
  | some id => (w.text? id).getD (w.typeKey id ++ AddressText.mask)

/-- The value under a key. -/
def find? (w : World κ) (r : Ref) (key : Ref) : Option Ref :=
  ((w.entries r).find? fun (k, _) => w.sameKey k key).map (·.2)

/-- The map has an entry with the key. -/
def contains (w : World κ) (r : Ref) (key : Ref) : Bool := (find? w r key).isSome

/-- Asks how a key is compared if there is an entry to compare it with. -/
def askLookup (r : Ref) (key : Ref) : Run κ Unit := do
  if !((← MonadState.get).entries r).isEmpty then Run.askKey key

/-- Looks for an entry with the key. -/
def has (r : Ref) (key : Ref) : Run κ Bool := do
  askLookup r key
  return contains (← MonadState.get) r key

/-- How a key is shown, which is asked whether it is a string. -/
def keyText (key : Ref) : Run κ String := do
  Run.askKey key
  return showKey (← MonadState.get) key

/-- A new map with the entries of a list, of which later ones replace the values of earlier ones
with the same key. -/
def ofList (pairs : List (Ref × Ref)) : Run κ Ref := do
  return some (← Run.create .map (.map (← Run.collectEntries pairs)))

/-- The value under a key, checked against the value type. -/
def get (value : RefType) (r : Ref) (key : Ref) : Run κ Ref := do
  Run.askKey key
  let w ← MonadState.get
  match find? w r key with
  | none => Run.fail (.keyMissing (showKey w key))
  | some v =>
    let v ← Run.downcast value v
    Run.retainRef v
    return v

/-- All entries, checked against the types; of two mismatches that of the key is reported. -/
def iterate (w : World κ) (key value : RefType) (r : Ref) : Except Fault (List (Ref × Ref)) :=
  (w.entries r).mapM fun (k, v) =>
    match w.downcast key k, w.downcast value v with
    | .ok k, .ok v => .ok (k, v)
    | .error cause, _ | _, .error cause => .error (.panic (.entryType cause))

/-- All entries, which are asked whether they are of the types, up to the first one that is not. -/
def items (key value : RefType) (r : Ref) : Run κ (List (Ref × Ref)) := do
  Run.askWhile
    (fun (e : Ref × Ref) => do
      Run.askType key e.1
      Run.askType value e.2)
    (fun w e => (w.mismatch? key e.1).isNone && (w.mismatch? value e.2).isNone)
    ((← MonadState.get).entries r)
  Run.ofFallible (iterate (← MonadState.get) key value r)

/-- A map to which the caller holds the only reference, with the same entries. -/
def makeUnique (r : Ref) : Run κ ObjId := do
  match r with
  | none => Run.create .map (.map [])
  | some id =>
    let w ← MonadState.get
    if w.heap.count id = 1 then return id
    else
      let entries := w.entries r
      entries.forM fun (k, v) => do
        Run.retainRef k
        Run.retainRef v
      let copy ← Run.create .map (.map entries)
      Run.release id
      return copy

/-- Puts a value under a key.  An entry with the same key keeps its place and its own key. -/
def insert (r : Ref) (key value : Ref) : Run κ Ref := do
  Run.releasingOnFault (key.toList ++ value.toList) do
    let _ ← Run.touch .map
    Run.askKey key
  let id ← makeUnique r
  let w ← MonadState.get
  let entries := w.entries (some id)
  Run.modifyHeap (·.setPayload id (.map (insertEntry w.sameKey key value entries)))
  match entries.find? fun (k, _) => w.sameKey k key with
  | some (_, replaced) => Run.releaseAll (key.toList ++ replaced.toList)
  | none => pure ()
  return some id

/-- Removes the entry with a key and tells whether there was one.  Without one nothing is copied. -/
def remove (r : Ref) (key : Ref) : Run κ (Ref × Bool) := do
  askLookup r key
  let w ← MonadState.get
  match (w.entries r).find? fun (k, _) => w.sameKey k key with
  | none => return (r, false)
  | some (k, v) =>
    let id ← makeUnique r
    let w ← MonadState.get
    let rest := (w.entries (some id)).eraseP fun (k, _) => w.sameKey k key
    Run.modifyHeap (·.setPayload id (.map rest))
    Run.releaseAll (k.toList ++ v.toList)
    return (some id, true)

end ObjectRuntime.Dict
