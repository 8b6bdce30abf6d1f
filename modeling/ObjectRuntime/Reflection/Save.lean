import ObjectRuntime.Reflection.Graph
import ObjectRuntime.Reflection.Inquiry
import ObjectRuntime.Tensor.Blob
import ObjectRuntime.Text.Base64
set_option autoImplicit false

/-!
# Saving object graphs

Every object becomes one node, however often it is referred to.  Nodes are numbered in the order in
which objects are first met, an object before what it holds.  `saveGraph` saves in a world at rest, and
`Reflection.save` does the same in a running program.
-/

namespace ObjectRuntime

namespace Saving

variable {κ α : Type} {m : Type → Type} [Monad m]

/-- The nodes so far, the first one first, and the number given to each object. -/
structure Progress where
  numbers : List (ObjId × Nat)
  nodes : Array GraphNode

/-- A part of the traversal. -/
abbrev Save (m : Type → Type) := StateT Progress m

/-- Fails with an error. -/
def fail [Inquiry m] (cause : Error) : Save m α := Inquiry.ofFallible (.error (.error cause))

/-- A node about which only its type is known. -/
def blank (typeKey : String) : GraphNode := ⟨typeKey, [], [], [], none, none⟩

/-- The text of a list of extents. -/
def showShape (dims : List Int) : String := showInts dims

/-- The number of the node that a reference refers to. -/
def ref (number : ObjId → Save m Nat) (r : Ref) : Save m Nat :=
  match r with
  | some id => number id
  | none => pure 0

/-- The text that stands for the value of an attribute. -/
def attrText [Inquiry m] (w : World κ) (number : ObjId → Save m Nat) (typeKey : String)
    (a : Attr) : Save m String :=
  match a.value with
  | .object _ id => do return toString (← number id)
  | .null => pure "0"
  | .int n => pure (toString n)
  | .float x => pure x.toText
  | .bool b => pure (if b then "1" else "0")
  | .text s => pure s
  | .dataType d => pure d.toText
  | .device d =>
    match Device.ofRaw d with
    | .ok device => pure device.toText
    | .error cause => fail (.device cause)
  | other => fail (.graphFormat (.unsavable a.key typeKey (w.valueTypeName other)))

/-- The texts of all keys of a map, if all of them are strings. -/
def stringKeys? (w : World κ) (entries : List (Ref × Ref)) : Option (List String) :=
  entries.mapM fun (key, _) => key.bind w.text?

/-- The node of an object. -/
def node [Inquiry m] (w : World κ) (number : ObjId → Save m Nat) (id : ObjId) :
    Save m GraphNode := do
  let start := blank (w.typeKey id)
  Inquiry.askContent id
  match w.payload? id with
  | some (.text s) => return { start with text := some s }
  | some (.shape dims) => return { start with text := some (showShape dims) }
  | some (.array elems) => return { start with data := ← elems.mapM (ref number) }
  | some (.map entries) =>
    match stringKeys? w entries with
    | some keys =>
      return { start with keys, data := ← entries.mapM fun (_, v) => ref number v }
    | none =>
      let pairs ← entries.mapM fun (k, v) => do return [← ref number k, ← ref number v]
      return { start with data := pairs.flatten }
  | some (.tensor t) =>
    let saved ← Inquiry.ofFallible (Blob.recordOf w id t)
    return { start with base64 := some (Base64.encode saved.encode) }
  | _ =>
    Inquiry.ask .schemas
    match ← Inquiry.attrs w id with
    | .error cause => fail cause
    | .ok attrs =>
      let texts ← attrs.mapM fun a => do return (a.key, ← attrText w number start.typeKey a)
      return { start with attrs := NameTable.sorted (NameTable.ofList texts) }

/-- The number of an object, which is saved when it is first met.  As an object gets its number
before what it holds is met, no more objects are nested than there are. -/
def numberWithin [Inquiry m] (w : World κ) : Nat → ObjId → Save m Nat
  | 0, _ => Inquiry.ofFallible (.error (.panic .stackExhausted))
  | depth + 1, id => do
    match (← get).numbers.lookup id with
    | some n => return n
    | none =>
      let n := (← get).nodes.size
      modify fun p => ⟨(id, n) :: p.numbers, p.nodes.push (blank "")⟩
      let node ← node w (numberWithin w depth) id
      modify fun p => { p with nodes := p.nodes.set! n node }
      return n

/-- The graph of a reference in a world, of which questions are asked on the way. -/
def graphOf [Inquiry m] (w : World κ) (r : Ref) : m Graph := do
  let number : ObjId → Save m Nat := numberWithin w (w.heap.cells.size + 1)
  let (root, saved) ← (ref number r).run ⟨[], #[blank ""]⟩
  return ⟨root, saved.nodes.toList, [], [("tvm_version", Graph.version)]⟩

end Saving

/-- The graph of an object and all that it holds. -/
def saveGraph {κ : Type} (w : World κ) (r : Ref) : Except Fault Graph := Saving.graphOf w r

/-- The text of the graph of an object in a running program. -/
def Reflection.save {κ : Type} (r : Ref) : Run κ String := do
  return (← Saving.graphOf (← get) r).toText

end ObjectRuntime
