import ObjectRuntime.World
set_option autoImplicit false

/-!
# Sample classes

A small family of object classes that uses every feature of classes and schemas: variables and the
functions that bind them, nodes of graphs, fields of every type, a class with derived classes that
use up its slots, and one whose slots may not overflow.
-/

namespace ObjectRuntime.Sample

/-- A class that is not final and claims no index. -/
def classOf (key : String) (childSlots : Nat) (slotsCanOverflow : Bool) (base : ObjectClass) :
    ObjectClass :=
  .derived ⟨key, none, childSlots, slotsCanOverflow, false⟩ base

/-- Variables. -/
def var : ObjectClass := classOf "oracle.Var" 0 true .root
/-- Functions with parameters. -/
def func : ObjectClass := classOf "oracle.Func" 0 true .root
/-- Nodes of graphs. -/
def graph : ObjectClass := classOf "oracle.Graph" 0 true .root
/-- Objects with a plain field of every type. -/
def pod : ObjectClass := classOf "oracle.Pod" 0 true .root
/-- Objects with a reference of every type. -/
def refs : ObjectClass := classOf "oracle.Refs" 0 true .root
/-- A class with slots for two derived classes. -/
def base : ObjectClass := classOf "oracle.Base" 2 true .root
/-- The first derived class. -/
def child1 : ObjectClass := classOf "oracle.Child1" 0 true base
/-- The second derived class, which has no subclasses. -/
def child2 : ObjectClass := .derived ⟨"oracle.Child2", none, 0, true, true⟩ base
/-- The third derived class, for which no slot is left. -/
def child3 : ObjectClass := classOf "oracle.Child3" 0 true base
/-- A class with a slot for one derived class and for no more. -/
def closed : ObjectClass := classOf "oracle.Closed" 1 false .root
/-- The derived class that takes the slot. -/
def closedKid : ObjectClass := classOf "oracle.ClosedKid" 0 true closed
/-- A derived class that finds no slot. -/
def closedKid2 : ObjectClass := classOf "oracle.ClosedKid2" 0 true closed
/-- A class that is not reflected. -/
def plain : ObjectClass := classOf "oracle.Plain" 0 true .root

/-- References to variables. -/
def varRef : RefType := .named "Var" var

/-- A field that is used. -/
def use (key : String) (type : ValueType) : Field := ⟨key, type, .use⟩

/-- A field that is a reference. -/
def useRef (key : String) (type : RefType) : Field := use key (.ref type)

/-- A field that defines the variables it holds. -/
def define (key : String) (type : RefType) : Field := ⟨key, .ref type, .definition⟩

/-- The fields of the class with derived classes. -/
def baseFields : List Field := [use "id" (.int .i64)]

/-- The reflected classes in the order in which they are registered. -/
def schemas : List Schema := [
  ⟨var, .variable, [useRef "name" .string]⟩,
  ⟨func, .tree, [define "params" (.array varRef), useRef "body" (.array .object),
    use "weight" .f64, useRef "count" .boxInt, ⟨"cache", .int .i64, .skipped⟩]⟩,
  ⟨graph, .graph, [use "value" (.int .i64), useRef "deps" (.array .object)]⟩,
  ⟨pod, .tree, [use "a_i8" (.int .i8), use "a_i16" (.int .i16), use "a_i32" (.int .i32),
    use "a_i64" (.int .i64), use "a_u8" (.int .u8), use "a_u16" (.int .u16),
    use "a_u32" (.int .u32), use "a_f32" .f32, use "a_f64" .f64, use "a_bool" .bool,
    use "a_str" .text, use "a_dtype" .dataType, use "a_device" .device]⟩,
  ⟨refs, .tree, [useRef "s" .string, useRef "shape" .shapeTuple, useRef "nd" .tensor,
    use "opt" (.option (.ref .string)), useRef "any" .object,
    define "map" (.map .string .object), useRef "renamed" .boxFloat, useRef "b" .boxBool]⟩,
  ⟨base, .tree, baseFields⟩,
  ⟨child1, .tree, baseFields ++ [use "extra" .text]⟩,
  ⟨child2, .tree, baseFields⟩,
  ⟨child3, .tree, baseFields ++ [use "id3" (.int .i64)]⟩,
  ⟨closed, .tree, []⟩,
  ⟨closedKid, .tree, [use "v" .bool]⟩]

/-- The types of references by name. -/
def refTypes : List (String × RefType) :=
  [("ObjectRef", .object), ("Object", .object), ("Module", .module), ("NDArray", .tensor),
    ("String", .string), ("ShapeTuple", .shapeTuple), ("Function", .function), ("Int", .boxInt),
    ("Float", .boxFloat), ("Bool", .boxBool), ("Array", .named "Array" .array),
    ("Map", .named "Map" .map), ("Var", varRef), ("Func", .named "Func" func),
    ("Graph", .named "Graph" graph), ("Pod", .named "Pod" pod), ("Refs", .named "Refs" refs),
    ("Base", .named "Base" base), ("Child1", .named "Child1" child1),
    ("Child2", .named "Child2" child2), ("Child3", .named "Child3" child3),
    ("Closed", .named "Closed" closed), ("ClosedKid", .named "ClosedKid" closedKid),
    ("ClosedKid2", .named "ClosedKid2" closedKid2), ("Plain", .named "Plain" plain)]

variable {κ : Type}

/-- Makes a class known to reflection. -/
def registerSchema (s : Schema) : Run κ Unit := do
  let index ← Run.touch s.cls
  modify fun w => { w with schemas := w.schemas ++ [(index, s)] }

/-- Registers the built-in classes and the sample classes. -/
def registerClasses : Run κ Unit := do
  ObjectClass.builtins.forM fun c => discard (Run.touch c)
  schemas.forM registerSchema
  discard (Run.touch plain)

end ObjectRuntime.Sample
