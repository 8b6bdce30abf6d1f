import ObjectRuntime.Container.Show
import ObjectRuntime.Session.Values
set_option autoImplicit false

/-!
# Steps on objects

What can be asked of an object whatever its class: its type, its owners, and whether it belongs to
another type.
-/

namespace ObjectRuntime.Session

/-- The type of an object. -/
def typeOf (r : Ref) : Act Report := do
  let w ← currentWorld
  return .ofOption (fun id => .record [("type_key", .text (w.typeKey id)),
    ("type_index", .count (w.typeIndex id))]) r

/-- The header of an object. -/
def headerOf (r : Ref) : Act Report := do
  let w ← currentWorld
  return .ofOption (fun id => .shown (w.showHeader id)) r

/-- A reference for inspection. -/
def textOf (t : RefType) (r : Ref) : Act Report := do return .shown (← ofRun (Run.showRef t r))

/-- A reference as the key of a map for inspection. -/
def keyTextOf (r : Ref) : Act Report := do return .shown (← ofRun (Dict.keyText r))

/-- Two references refer to the same object; no other objects are equal. -/
def identity (a b : Ref) : Report := .record [("same", .flag (a == b)), ("eq", .flag (a == b))]

/-- The index of the class of a type, which is registered on first use. -/
def touch (t : RefType) : Act Nat := ofRun (Run.touch t.cls)

/-- The ways to ask whether an object belongs to a type. -/
def membership (t : RefType) (r : Ref) : Act Report := do
  match r with
  | none => return .nothing
  | some id =>
    let index ← touch t
    ofRun (Run.askType t r)
    let w ← currentWorld
    return .record [
      ("is", .flag (w.isInstance id t.cls)),
      ("ref", .flag (w.downcast t r).toBool),
      ("derived", .flag (w.types.derivedFrom (w.typeIndex id) index))]

/-- An object seen as one of a class. -/
def seenAs (t : RefType) (r : Ref) : Act Report := do
  match r with
  | none => return .nothing
  | some id =>
    let _ ← checked (.named t.name t.cls) r
    return .text ((← currentWorld).typeKey id ++ " as " ++ t.cls.key)

/-- Checks a reference against a type and passes it on. -/
def downcast (dest : Target) (t : RefType) (e : Expr) : Act Report := do
  let r ← evalRef .object e
  giveRef dest (← releasingOnFault r.toList (checked t r))

/-- Checks a reference against a type; nothing if it refers to nothing or does not pass. -/
def downcast? (dest : Target) (t : RefType) (r : Ref) : Act Report := do
  ofRun (Run.askType t r)
  match r, (← currentWorld).downcast t r with
  | some id, .ok _ => return .record [("some", ← viewFor dest (.object .object id))]
  | _, _ => return .nothing

/-- The first part of an object that is not of a type. -/
def mismatch (t : RefType) (r : Ref) : Act Report := do
  ofRun (Run.askType t r)
  return .ofOption .shown ((← currentWorld).mismatch? t r)

/-- All that can be asked of a type. -/
def describeType (t : RefType) : Act Report := do
  let index ← touch t
  let parent ← ofRun (Run.touch t.cls.base)
  return .record [("name", .text t.typeName), ("key", .text t.cls.key),
    ("final", .flag t.cls.isFinal), ("index", .count index), ("parent", .count parent),
    ("null", .flag ((← currentWorld).downcast t none).toBool)]

/-- Uses a reference that refers to nothing. -/
def useNothing (t : RefType) : Act Report := ofRun (Run.panic (.nullDereference t.name))

/-- Sees a reference as one to its base class. -/
def upcast (base : RefType) (key : String) (r : Ref) : Act Report := do
  match r with
  | none => ofRun (Run.panic (.nullDereference base.name))
  | some _ =>
    let seen ← checked base r
    let v ← query (·.attr seen key)
    return .record [(key, ← view v), ("same", .flag (seen == r)), ("eq", .flag (seen == r))]

/-- The number of references to an object. -/
def countOf (id : ObjId) : Act Nat := do return (← currentWorld).heap.count id

/-- The owners of the object in a register. -/
def owners (name : String) : Act Report := do
  match ← register? name with
  | some (.object _ id) =>
    let count ← countOf id
    return .record [("count", .count count), ("unique", .flag (count == 1))]
  | _ => return .nothing

/-- Reference counts of an object while a second owner and a borrower come and go, relative to the
start, and whether it may be changed in place with and without the second owner. -/
def ownersInTurn (r : Ref) : Act Report := do
  match r with
  | none => return .nothing
  | some id =>
    let start ← countOf id
    ofRun (Run.retain id)
    let shared ← countOf id
    ofRun (Run.retain id)
    let borrowed ← countOf id
    ofRun (Run.release id)
    let adopted ← countOf id
    ofRun (Run.release id)
    let last ← countOf id
    return .list [.count (shared - start), .count (borrowed - start), .count (adopted - start),
      .flag (adopted == 1), .flag (last == 1), .count (last - start)]

end ObjectRuntime.Session
