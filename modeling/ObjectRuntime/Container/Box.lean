import ObjectRuntime.Conversion
set_option autoImplicit false

/-!
# Boxes

A box holds one number or truth value.  `setValue` takes a box over and gives back one with another
content: the same object if the caller's reference was the only one, and a new one otherwise.
-/

namespace ObjectRuntime

/-- What a box can hold. -/
inductive BoxContent where
  | int (n : I64)
  | float (x : Double)
  | bool (b : Bool)
  deriving DecidableEq, Repr

namespace BoxContent

/-- The class of the boxes that hold such a content. -/
def cls : BoxContent → ObjectClass
  | .int _ => .boxInt
  | .float _ => .boxFloat
  | .bool _ => .boxBool

/-- The content as that of an object. -/
def payload {κ : Type} : BoxContent → Payload κ
  | .int n => .boxInt n
  | .float x => .boxFloat x
  | .bool b => .boxBool b

/-- The content as a value. -/
def value : BoxContent → Value
  | .int n => .int n
  | .float x => .float x
  | .bool b => .bool b

/-- The content of a box, read as one of the same kind. -/
def readAlike {κ : Type} (c : BoxContent) (p : Payload κ) : Option BoxContent :=
  match c with
  | .int _ => .int <$> p.int?
  | .float _ => .float <$> p.double?
  | .bool _ => .bool <$> p.bool?

end BoxContent

namespace Box

variable {κ : Type}

/-- The content of a box, read as one of the same kind as another. -/
def content? (w : World κ) (r : Ref) (like : BoxContent) : Option BoxContent :=
  (r.bind w.payload?).bind like.readAlike

/-- A new box. -/
def make (c : BoxContent) : Run κ ObjId := Run.create c.cls c.payload

/-- Replaces the content of a box. -/
def setValue (r : Ref) (c : BoxContent) : Run κ Ref := do
  match r with
  | none => some <$> make c
  | some id =>
    if (← get).heap.count id = 1 then
      Run.modifyHeap (·.setPayload id c.payload)
      return some id
    else
      let fresh ← make c
      Run.release id
      return some fresh

end Box

end ObjectRuntime
