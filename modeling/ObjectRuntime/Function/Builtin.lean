import ObjectRuntime.Container.Array
import ObjectRuntime.Container.Map
import ObjectRuntime.Function.Typed
import ObjectRuntime.Module
import ObjectRuntime.Reflection.Hash
import ObjectRuntime.Reflection.Load
import ObjectRuntime.Reflection.Save
set_option autoImplicit false

/-!
# Built-in functions

The functions that every registry starts with: constructors and accessors of the containers,
parameter blobs, modules, and the operations on reflected objects.  Most are typed; the
constructors that take any number of arguments are not.
-/

namespace ObjectRuntime

/-- The built-in functions. -/
inductive Builtin where
  | string | getText
  | array | arrayItem | arraySize
  | map | mapSize | mapItem | mapCount | mapItems
  | shapeTuple | shapeTupleSize | shapeTupleElem
  | boxInt | boxFloat | boxBool
  | pointerHash
  | saveParams | loadParams
  | moduleFunction | systemLibrary
  | structuralEqual | structuralHash | saveGraph | loadGraph
  | attr | attrNames | makeNode
  deriving DecidableEq, Repr

namespace Builtin

/-- All built-in functions. -/
def all : List Builtin :=
  [.string, .getText, .array, .arrayItem, .arraySize, .map, .mapSize, .mapItem, .mapCount,
    .mapItems, .shapeTuple, .shapeTupleSize, .shapeTupleElem, .boxInt, .boxFloat, .boxBool,
    .pointerHash, .saveParams, .loadParams, .moduleFunction, .systemLibrary, .structuralEqual,
    .structuralHash, .saveGraph, .loadGraph, .attr, .attrNames, .makeNode]

/-- The name under which the function is registered. -/
def name : Builtin → String
  | .string => "runtime.String"
  | .getText => "runtime.GetFFIString"
  | .array => "runtime.Array"
  | .arrayItem => "runtime.ArrayGetItem"
  | .arraySize => "runtime.ArraySize"
  | .map => "runtime.Map"
  | .mapSize => "runtime.MapSize"
  | .mapItem => "runtime.MapGetItem"
  | .mapCount => "runtime.MapCount"
  | .mapItems => "runtime.MapItems"
  | .shapeTuple => "runtime.ShapeTuple"
  | .shapeTupleSize => "runtime.GetShapeTupleSize"
  | .shapeTupleElem => "runtime.GetShapeTupleElem"
  | .boxInt => "runtime.BoxInt"
  | .boxFloat => "runtime.BoxFloat"
  | .boxBool => "runtime.BoxBool"
  | .pointerHash => "runtime.ObjectPtrHash"
  | .saveParams => "runtime.SaveParams"
  | .loadParams => "runtime.LoadParams"
  | .moduleFunction => "runtime.ModuleGetFunction"
  | .systemLibrary => "runtime.SystemLib"
  | .structuralEqual => "node.StructuralEqual"
  | .structuralHash => "node.StructuralHash"
  | .saveGraph => "node.SaveJSON"
  | .loadGraph => "node.LoadJSON"
  | .attr => "node.NodeGetAttr"
  | .attrNames => "node.NodeListAttrNames"
  | .makeNode => "node.MakeNode"

variable {κ : Type}

/-! ## Constructors that take any number of arguments -/

/-- An object for each value. -/
def objects (vs : List Value) : Run κ (List Ref) :=
  Run.mapOwned Option.toList (Run.decodeRef .object) vs

/-- Arguments two by two. -/
def argPairs (function : String) (vs : List Value) : Run κ (List (Value × Value)) :=
  if vs.length % 2 ≠ 0 then
    Run.failRaw s!"{function} expects key value pairs, but {vs.length} arguments were provided"
  else pure (Loading.pairs vs)

/-- An array of the arguments. -/
def makeArray (vs : List Value) : Run κ Value := do
  Run.encodeRef (← Arr.ofList (← objects vs)) false

/-- A map of keys and values that take turns. -/
def makeMap (vs : List Value) : Run κ Value := do
  let _ ← Run.touch .map
  let pairs ← argPairs Builtin.map.name vs
  let entries ← Run.mapOwned (fun (e : Ref × Ref) => e.1.toList ++ e.2.toList)
    (fun (k, v) => do
      let key ← Run.decodeRef .object k
      let value ← Run.releasingOnFault key.toList (Run.decodeRef .object v)
      Run.releasingOnFault (key.toList ++ value.toList) (Run.askKey key)
      return (key, value)) pairs
  Run.encodeRef (← Dict.ofList entries) false

/-- A tuple of extents. -/
def makeShape (vs : List Value) : Run κ Value := do
  let dims ← vs.mapM (Run.decode (.int .i64))
  Run.encodeRef (some (← Run.create .shapeTuple (.shape (dims.map (·.val))))) false

/-- An object of the class with the key that comes first, made from keys and values of attributes
that take turns. -/
def makeObject (vs : List Value) : Run κ Value := do
  match vs with
  | [] => Run.fail (.argCount Builtin.makeNode.name "(type_key, key, value, ...)" 1 0)
  | key :: rest =>
    let typeKey ← Run.decode .text key
    let pairs ← argPairs Builtin.makeNode.name rest
    let given ← pairs.mapM fun (k, v) => do return (← Run.decode .text k, v)
    Run.encodeRef (← createObject typeKey given) false

/-! ## Typed functions -/

/-- Calls a typed built-in function. -/
def typed (b : Builtin) (params : List ValueType) (result : ValueType)
    (body : Args params → Run κ result.Carrier) : List Value → Run κ Value :=
  Run.callTyped b.name ⟨params, result, false⟩ body

/-- Calls a typed built-in function that may fail by itself. -/
def fallible (b : Builtin) (params : List ValueType) (result : ValueType)
    (body : Args params → Run κ result.Carrier) : List Value → Run κ Value :=
  Run.callTyped b.name ⟨params, result, true⟩ body

/-- A number of the size of a word. -/
def count (n : Nat) : I64 := MachineInt.wrap .i64 n

/-- Arrays of any objects. -/
def anyArray : ValueType := .ref (.array .object)

/-- Maps between any objects. -/
def anyMap : ValueType := .ref (.map .object .object)

/-- A reference to any object. -/
def anyObject : ValueType := .ref .object

/-- The extents of a tuple, which has to be there. -/
def extents (w : World κ) (r : Ref) : Except Fault (List Int) :=
  match r.bind w.payload? with
  | some (.shape dims) => .ok dims
  | _ => .error (.panic (.nullDereference "ShapeTuple"))

/-- The key of the type of an object, and nothing for no object. -/
def keyOf (w : World κ) (r : Ref) : String := (r.map w.typeKey).getD ""

/-- Keys and values of a map, each key before its value. -/
def items (w : World κ) (r : Ref) : Run κ Ref := do
  let elems := (w.entries r).flatMap fun (k, v) => [k, v]
  elems.forM Run.retainRef
  Arr.ofList elems

/-- Compares two objects; a difference may be made an error. -/
def compare (a b : Ref) (insist mapFree : Bool) : Run κ Bool := do
  let equal ← Reflection.equal a b mapFree
  if insist && !equal then
    let left := keyOf (← get) a
    let right := keyOf (← get) b
    Run.failRaw s!"StructuralEqual check failed between `{left}` and `{right}`"
  else return equal

/-- The place of an object that is made of a plain value for one call.  It is gone after the call, and
the next one of its size takes its place, which is the place of no object that stays. -/
def passingPlace? : Value → Option UInt64
  | .null | .object _ _ => none
  | .text _ => some 4
  | _ => some 8

/-- The place of the object that a value is or is made into. -/
def hashPointer (vs : List Value) : Run κ Value := do
  let place ← pointerHash.typed [anyObject] (.int .i64)
    (fun (r, _) => pure (MachineInt.wrap .i64 (World.placeOf r).toNat)) vs
  match vs.head?.bind passingPlace? with
  | some passing => return .int (MachineInt.wrap .i64 passing.toNat)
  | none => return place

/-- Calls a built-in function. -/
def run (b : Builtin) : List Value → Run κ Value :=
  match b with
  | .string => b.typed [.text] (.ref .string) fun (s, _) => some <$> Run.create .string (.text s)
  | .getText => b.typed [.ref .string] .text fun (r, _) => do
    Run.ofFallible (Blob.derefText (← get) r)
  | .array => makeArray
  | .arrayItem => b.fallible [anyArray, .int .i64] anyObject fun (r, i, _) =>
    Arr.get .object r i.val
  | .arraySize => b.typed [anyArray] (.int .i64) fun (r, _) => do
    return count ((← get).elements r).length
  | .map => makeMap
  | .mapSize => b.typed [anyMap] (.int .i64) fun (r, _) => do
    return count ((← get).entries r).length
  | .mapItem => b.fallible [anyMap, anyObject] anyObject fun (r, key, _) =>
    Dict.get .object r key
  | .mapCount => b.typed [anyMap, anyObject] (.int .i64) fun (r, key, _) => do
    return count (if ← Dict.has r key then 1 else 0)
  | .mapItems => b.typed [anyMap] anyArray fun (r, _) => do items (← get) r
  | .shapeTuple => makeShape
  | .shapeTupleSize => b.typed [.ref .shapeTuple] (.int .i64) fun (r, _) => do
    return count (← Run.ofFallible (extents (← get) r)).length
  | .shapeTupleElem => b.fallible [.ref .shapeTuple, .int .i64] (.int .i64) fun (r, i, _) => do
    let dims ← Run.ofFallible (extents (← get) r)
    if 0 ≤ i.val then
      match dims[i.val.toNat]? with
      | some dim => return MachineInt.wrap .i64 dim
      | none => Run.fail (.indexOutOfBounds "ShapeTuple" i.val dims.length)
    else Run.fail (.indexOutOfBounds "ShapeTuple" i.val dims.length)
  | .boxInt => b.typed [.int .i64] (.ref .boxInt) fun (n, _) =>
    some <$> Run.create .boxInt (.boxInt n)
  | .boxFloat => b.typed [.f64] (.ref .boxFloat) fun (x, _) =>
    some <$> Run.create .boxFloat (.boxFloat x)
  | .boxBool => b.typed [.bool] (.ref .boxBool) fun (x, _) =>
    some <$> Run.create .boxBool (.boxBool x)
  | .pointerHash => hashPointer
  | .saveParams => b.typed [.ref (.map .string .tensor)] .bytes fun (r, _) => Blob.saveParams r
  | .loadParams => b.fallible [.bytes] (.ref (.map .string .tensor)) fun (blob, _) =>
    Blob.loadParams blob
  | .moduleFunction =>
    b.typed [.ref .module, .text, .bool] (.option (.ref .function)) fun (m, name, imports, _) => do
      match m with
      | some id => Module.lookup id name imports
      | none => Run.panic (.nullDereference "Module")
  | .systemLibrary => b.typed [] (.ref .module) fun _ => some <$> Module.systemLibrary
  | .structuralEqual => b.fallible [anyObject, anyObject, .bool, .bool] .bool
    fun (x, y, insist, mapFree, _) => compare x y insist mapFree
  | .structuralHash => b.typed [anyObject, .bool] (.int .i64) fun (r, mapFree, _) => do
    return MachineInt.wrap .i64 (← Reflection.hash r mapFree).toNat
  | .saveGraph => b.fallible [anyObject] .text fun (r, _) => Reflection.save r
  | .loadGraph => b.fallible [.text] anyObject fun (text, _) => loadText text
  | .attr => b.fallible [anyObject, .text] .any fun (r, key, _) => Reflection.attr r key
  | .attrNames => b.fallible [anyObject] (.ref (.array .string)) fun (r, _) => do
    let names ← Reflection.attrNames r
    let strings ← Run.mapOwned Option.toList
      (fun name => some <$> Run.create .string (.text name)) names
    Arr.ofList strings
  | .makeNode => makeObject

end Builtin

end ObjectRuntime
