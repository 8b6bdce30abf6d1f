import ObjectRuntime.TypeTable
set_option autoImplicit false

/-!
# The built-in object classes

Strings, containers, shapes, functions, modules and tensors claim the reserved type indices; the
boxes of plain numbers get theirs on first use.
-/

namespace ObjectRuntime.ObjectClass

/-- A class directly below the root that claims an index. -/
def reserved (key : String) (index : Nat) (isFinal : Bool) : ObjectClass :=
  .derived ⟨key, some index, 0, true, isFinal⟩ .root

/-- A final class directly below the root. -/
def leaf (key : String) : ObjectClass := .derived ⟨key, none, 0, true, true⟩ .root

/-- Tables of functions. -/
def module : ObjectClass := reserved "runtime.Module" 1 false
/-- Tensors. -/
def tensor : ObjectClass := reserved "runtime.NDArray" 2 true
/-- Strings. -/
def string : ObjectClass := reserved "runtime.String" 3 true
/-- Arrays of references. -/
def array : ObjectClass := reserved "Array" 4 true
/-- Maps between references. -/
def map : ObjectClass := reserved "Map" 5 true
/-- Tuples of extents. -/
def shapeTuple : ObjectClass := reserved "runtime.ShapeTuple" 6 true
/-- Functions. -/
def function : ObjectClass := reserved "runtime.PackedFunc" 7 true
/-- Boxed integers. -/
def boxInt : ObjectClass := leaf "runtime.BoxInt"
/-- Boxed floating point numbers. -/
def boxFloat : ObjectClass := leaf "runtime.BoxFloat"
/-- Boxed truth values. -/
def boxBool : ObjectClass := leaf "runtime.BoxBool"

/-- The built-in classes in the order in which they are registered. -/
def builtins : List ObjectClass :=
  [module, tensor, string, array, map, shapeTuple, function, boxInt, boxFloat, boxBool]

end ObjectRuntime.ObjectClass
