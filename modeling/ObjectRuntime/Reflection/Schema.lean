import ObjectRuntime.Object.ValueType
set_option autoImplicit false

/-!
# Schemas of reflected classes

A reflected class lists its fields, those of its base classes first.  Its kind says how its objects
take part in structural comparison, and the role of a field says whether it defines the variables
it holds.  A skipped field keeps the default of its type and is never shown.
-/

namespace ObjectRuntime

/-- How objects are compared. -/
inductive NodeKind where
  /-- By content, each time they occur. -/
  | tree
  /-- By content once; later occurrences must correspond. -/
  | graph
  /-- By identity, unless they are bound where they are defined. -/
  | variable
  deriving DecidableEq, Repr

/-- What a field is used for. -/
inductive FieldRole where
  | use | definition | skipped
  deriving DecidableEq, Repr

/-- A field of a reflected class. -/
structure Field where
  key : String
  type : ValueType
  role : FieldRole
  deriving DecidableEq, Repr

/-- A reflected class with all its fields. -/
structure Schema where
  cls : ObjectClass
  kind : NodeKind
  fields : List Field
  deriving DecidableEq, Repr

namespace Schema

/-- The fields that are shown. -/
def visible (s : Schema) : List Field := s.fields.filter (·.role ≠ .skipped)

/-- The schema of a box: its number is its only attribute. -/
def box (cls : ObjectClass) (type : ValueType) : Schema := ⟨cls, .tree, [⟨"value", type, .use⟩]⟩

/-- The boxes are reflected from the start. -/
def builtins : List Schema :=
  [box .boxInt (.int .i64), box .boxFloat .f64, box .boxBool .bool]

/-- The content of an object whose visible fields have the given values. -/
def payload {κ : Type} (s : Schema) (values : List Value) : Payload κ :=
  match values with
  | [.int n] => if s.cls = .boxInt then .boxInt n else .node values
  | [.float x] => if s.cls = .boxFloat then .boxFloat x else .node values
  | [.bool b] => if s.cls = .boxBool then .boxBool b else .node values
  | _ => .node values

end Schema

/-- The values of the visible fields of an object. -/
def Schema.values {κ : Type} (s : Schema) (content : Payload κ) : List Value :=
  match content with
  | .node values => values
  | box =>
    if s.cls = .boxInt then (box.int?.map .int).toList
    else if s.cls = .boxFloat then (box.double?.map .float).toList
    else if s.cls = .boxBool then (box.bool?.map .bool).toList
    else []

/-- An attribute shown by an object. -/
structure Attr where
  key : String
  value : Value
  isDefinition : Bool
  deriving DecidableEq, Repr

end ObjectRuntime
