import ObjectRuntime.Reflection.Attributes
set_option autoImplicit false

/-!
# Questions on the way through a graph

On its way through an object graph a traversal looks at schemas and asks to which classes the
objects belong.  A program that is running registers the classes that are asked for, which may fail;
a world that is only looked at answers without a trace.  A traversal is therefore written once, for
every monad in which questions can be asked.  It reads the world that it started from, because no
question changes what the objects hold.
-/

namespace ObjectRuntime

/-- What a traversal asks before it reads an object. -/
inductive Question where
  /-- Which types have a schema. -/
  | schemas
  /-- To which of some classes an object belongs, up to the first one. -/
  | classes (id : ObjId) (cs : List ObjectClass)
  deriving DecidableEq, Repr

/-- Where questions can be asked and faults can arise. -/
class Inquiry (m : Type → Type) where
  ask : Question → m Unit
  ofFallible {α : Type} : Except Fault α → m α

namespace Inquiry

variable {κ σ : Type} {m : Type → Type} [Monad m] [Inquiry m]

/-- Questions about a world that is only looked at leave no trace. -/
instance : Inquiry (Except Fault) where
  ask _ := .ok ()
  ofFallible answer := answer

/-- Questions in a running program register classes. -/
instance : Inquiry (Run κ) where
  ask
    | .schemas => Run.useReflection
    | .classes id cs => Run.askClasses id cs
  ofFallible := Run.ofFallible

instance : Inquiry (StateT σ m) where
  ask question := StateT.lift (ask question)
  ofFallible answer := StateT.lift (ofFallible answer)

/-- The classes whose objects have a content but no attributes. -/
def plainClasses : List ObjectClass := [.string, .shapeTuple, .array, .map, .tensor]

/-- Asks whether an object has a content but no attributes. -/
def askContent (id : ObjId) : m Unit := ask (.classes id plainClasses)

/-- Asks whether a key is a string. -/
def askKey (key : Ref) : m Unit :=
  match key with
  | some id => ask (.classes id [.string])
  | none => pure ()

/-- The attributes of an object.  The objects among them are asked how they travel. -/
def attrs (w : World κ) (id : ObjId) : m (Except Error (List Attr)) := do
  let found := w.attrs id
  let shown := (found.toOption.getD []).filterMap (·.value.object?)
  shown.forM fun id => ask (.classes id Run.travelClasses)
  return found

end Inquiry

namespace Reflection

variable {κ : Type}

/-- Looks at the attributes of an object. -/
def look (r : Ref) : Run κ Unit := do
  if let some id := r then
    Inquiry.ask .schemas
    let _ ← Inquiry.attrs (← get) id

/-- The value of an attribute, of which the caller gets a reference of its own. -/
def attr (r : Ref) (key : String) : Run κ Value := do
  look r
  let v ← Run.query (·.attr r key)
  Run.retainValue v
  return v

/-- The names of all attributes. -/
def attrNames (r : Ref) : Run κ (List String) := do
  look r
  Run.query (·.attrNames r)

end Reflection

end ObjectRuntime
