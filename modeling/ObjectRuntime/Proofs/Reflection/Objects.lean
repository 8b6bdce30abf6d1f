import ObjectRuntime.Object.Class
import ObjectRuntime.Proofs.Reflection.Content
import ObjectRuntime.Proofs.TypeTable.Lookups
set_option autoImplicit false

/-!
# Objects as their classes make them

A program makes an object of a class with the content that the class has, and a field of a reflected
class with a value of its type.  `World.WellMade` says so of all objects of a graph without cycles.
-/

namespace ObjectRuntime

open Relation (ReflTransGen)

namespace World

variable {κ : Type} {w : World κ} {a b id : ObjId} {c : ObjectClass}

/-- The object is of a class that has been looked up. -/
def OfClass (w : World κ) (id : ObjId) (c : ObjectClass) : Prop :=
  w.types.classIndex? c = some (w.typeIndex id)

/-- Whether an object is this one or another of the same content does not count: it is a string or a
box. -/
def IsLoose (w : World κ) (id : ObjId) : Prop :=
  (∃ s, w.payload? id = some (.text s)) ∨ ∃ schema ∈ Schema.builtins, w.OfClass id schema.cls

/-- The object is of a static type: by the test that is made of references, and by descent. -/
structure HasRefType (w : World κ) (t : RefType) (id : ObjId) : Prop where
  checked : w.mismatch? t (some id) = none
  descends : ∀ first, w.types.classIndex? t.cls = some first →
    w.types.derivedFrom (w.typeIndex id) first = true

/-- The value is one that a field of the type holds.  A data type among attributes has a name. -/
def HasType (w : World κ) : ValueType → Value → Prop
  | .int k, .int n => k.Fits n.val
  | .f32, .float x => x.toSingle.toDouble = x
  | .f64, .float _ => True
  | .bool, .bool _ => True
  | .text, .text _ => True
  | .dataType, .dataType d => d.Nameable
  | .device, .device d => ∃ device, Device.ofRaw d = .ok device
  | .ref t, v | .option (.ref t), v => v = .null ∨ ∃ id, v = .object .object id ∧ w.HasRefType t id
  | _, _ => False

/-- The tensor has extents that a tensor may have, and memory for all its elements. -/
structure IsWhole (w : World κ) (id : ObjId) (t : Tensor) : Prop where
  rank : IntKind.i32.Fits t.shape.length
  dims : ∀ n ∈ t.shape, 0 ≤ n ∧ IntKind.i64.Fits n
  memory : ∃ data, w.tensorBytes id t = .ok data ∧ t.size = .ok data.length ∧
    max data.length 1 ≤ IntKind.isize.max.toNat - (Tensor.alignment - 1)

/-- The object has a class and the content that this class gives its objects: a string, a shape, an
array, a map with distinct keys, a tensor, or the fields of a reflected class. -/
inductive IsMade (w : World κ) (id : ObjId) : Prop
  | text (s : String) (cls : w.OfClass id .string) (content : w.payload? id = some (.text s))
  | shape (dims : List Int) (cls : w.OfClass id .shapeTuple)
      (content : w.payload? id = some (.shape dims)) (fits : ∀ n ∈ dims, IntKind.i64.Fits n)
  | array (elems : List Ref) (cls : w.OfClass id .array)
      (content : w.payload? id = some (.array elems))
  | map (entries : List (Ref × Ref)) (cls : w.OfClass id .map)
      (content : w.payload? id = some (.map entries))
      (distinct : entries.Pairwise fun e e' => w.sameKey e.1 e'.1 = false)
  | tensor (t : Tensor) (cls : w.OfClass id .tensor) (content : w.payload? id = some (.tensor t))
      (whole : w.IsWhole id t)
  | node (schema : Schema) (values : List Value) (cls : w.OfClass id schema.cls)
      (reflected : w.schemaOf? id = some schema)
      (own : schema.cls.key ∉ Inquiry.plainClasses.map ObjectClass.key)
      (distinct : (schema.visible.map Field.key).Nodup)
      (content : w.payload? id = some (schema.payload values))
      (typed : List.Forall₂ (fun f v => w.HasType f.type v) schema.visible values)

/-- The object is the root of the graph or held by one of its objects. -/
def Below (w : World κ) (r : Ref) (id : ObjId) : Prop := ∃ a, r = some a ∧ ReflTransGen w.Refers a id

/-- A graph without cycles whose objects are as their classes make them. -/
structure WellMade (w : World κ) (r : Ref) : Prop where
  regular : w.types.Regular
  made : ∀ id, w.Below r id → w.IsMade id
  acyclic : w.Acyclic r

end World

end ObjectRuntime
