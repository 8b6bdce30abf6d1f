import ObjectRuntime.Conversion
set_option autoImplicit false

/-!
# Arrays

An array is a reference to an object with a list of references, or to nothing, which counts as an
empty array.  `push` and `set` take the array over and give back the changed one: the object is
changed in place exactly when the caller's reference was the only one, and copied otherwise.
-/

namespace ObjectRuntime.Arr

variable {κ : Type}

/-- A new array of references, which it takes over. -/
def ofList (elems : List Ref) : Run κ Ref := some <$> Run.create .array (.array elems)

/-- The position of an index, if it lies in an array of the given size. -/
def position (size : Nat) (index : Int) : Except Error Nat :=
  if 0 ≤ index ∧ index < size then .ok index.toNat
  else .error (.indexOutOfBounds "Array" index size)

/-- The element at an index, checked against the element type. -/
def get (elem : RefType) (r : Ref) (index : Int) : Run κ Ref := do
  let w ← MonadState.get
  let i ← Run.ofExcept (position (w.elements r).length index)
  let e ← Run.downcast elem ((w.elements r)[i]?.join)
  Run.retainRef e
  return e

/-- All elements, checked against the element type. -/
def iterate (w : World κ) (elem : RefType) (r : Ref) : Except Fault (List Ref) :=
  (w.elements r).mapM fun e =>
    match w.downcast elem e with
    | .ok e => .ok e
    | .error cause => .error (.panic (.elementType cause))

/-- All elements, which are asked whether they are of the element type. -/
def items (elem : RefType) (r : Ref) : Run κ (List Ref) := do
  Run.askType (.array elem) r
  Run.ofFallible (iterate (← MonadState.get) elem r)

/-- An array to which the caller holds the only reference, with the same elements. -/
def makeUnique (r : Ref) : Run κ ObjId := do
  match r with
  | none => Run.create .array (.array [])
  | some id =>
    let w ← MonadState.get
    if w.heap.count id = 1 then return id
    else
      let elems := w.elements r
      elems.forM Run.retainRef
      let copy ← Run.create .array (.array elems)
      Run.release id
      return copy

/-- Appends an element. -/
def push (r : Ref) (value : Ref) : Run κ Ref := do
  let id ← Run.releasingOnFault value.toList (makeUnique r)
  let w ← MonadState.get
  Run.modifyHeap (·.setPayload id (.array (w.elements (some id) ++ [value])))
  return some id

/-- Replaces the element at an index.  If there is none, only the new element is given up. -/
def set (r : Ref) (index : Int) (value : Ref) : Run κ Ref := do
  let w ← MonadState.get
  let i ← Run.releasingOnFault value.toList
    (Run.ofExcept (position (w.elements r).length index))
  let id ← makeUnique r
  let w ← MonadState.get
  let elems := w.elements (some id)
  Run.modifyHeap (·.setPayload id (.array (elems.set i value)))
  Run.releaseAll (elems[i]?.join).toList
  return some id

end ObjectRuntime.Arr
