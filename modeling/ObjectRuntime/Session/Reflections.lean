import ObjectRuntime.Session.Objects
set_option autoImplicit false

/-!
# Steps of reflection

Attributes of objects, structural equality and hashing, saved graphs, and the table of types.
-/

namespace ObjectRuntime.Session

/-! ## Attributes -/

/-- The value of an attribute. -/
def attr (dest : Target) (key : String) (r : Ref) : Act Report := do
  give dest (← ofRun (Reflection.attr r key))

/-- The names of all attributes. -/
def attrNames (r : Ref) : Act Report := do
  return .texts (← ofRun (Reflection.attrNames r))

/-- All attributes and whether they define what they hold. -/
def attrRoles (r : Ref) : Act Report := do
  match r with
  | none => return .nothing
  | some id =>
    ofRun (Reflection.look r)
    return .list ((← query (·.attrs id)).map fun a =>
      .list [.text a.key, .text (if a.isDefinition then "def" else "use")])

/-! ## Structure -/

/-- Structural equality. -/
def structurallyEqual (mapFree : Bool) (a b : Ref) : Act Bool := ofRun (Reflection.equal a b mapFree)

/-- The structural hash. -/
def structuralHashOf (mapFree : Bool) (r : Ref) : Act UInt64 := ofRun (Reflection.hash r mapFree)

/-- The text of the graph of an object. -/
def savedText (r : Ref) : Act String := ofRun (Reflection.save r)

/-- Loads a graph. -/
def load (dest : Target) (text : String) : Act Report := do giveRef dest (← ofRun (loadText text))

/-- Saves a graph and loads it again: whether the new object is equal and saved as the same text. -/
def roundTrip (dest : Target) (mapFree : Bool) (r : Ref) : Act Report := do
  let saved ← savedText r
  let loaded ← ofRun (loadText saved)
  let facts ← releasingOnFault loaded.toList do
    let equal ← structurallyEqual mapFree r loaded
    let again ← savedText loaded
    pure [("equal", Report.flag equal), ("again", .flag (again == saved))]
  return .record (facts ++ [("v", ← giveRef dest loaded)])

/-! ## The table of types -/

/-- Changes the table of types and shows the index that comes of it.  The table keeps what was
changed even if no index does. -/
def withTypes (change : TypeTable → TypeTable.Outcome Nat) : Act Report := do
  let (answer, types) := change (← currentWorld).types
  modify fun s => { s with world.types := types }
  return .count (← ofFallible answer)

/-- Registers a type by what it asks for. -/
def allocateType (decl : TypeDecl) (parent : Nat) : Act Report :=
  withTypes (·.allocate decl.key decl.claimed parent decl.childSlots decl.slotsCanOverflow)

/-- Registers the class of a type, whether or not it is remembered. -/
def registerType (t : RefType) : Act Report := withTypes (·.register t.cls)

/-- Whether one type is derived from another. -/
def typeDerived (child parent : Nat) : Act Report := do
  return .flag ((← currentWorld).types.derivedFrom child parent)

end ObjectRuntime.Session
