import ObjectRuntime.Reflection.Inquiry
import ObjectRuntime.Tensor.Memory
set_option autoImplicit false

/-!
# Structural equality

Two objects are equal if their contents are.  Variables are equal only to themselves, unless they
stand where variables are defined or free variables may be mapped: then two of them are bound to
each other.  Objects of graph nodes are bound too, once their contents have been found equal.
Whatever is bound has to correspond to its counterpart from then on.

A comparison threads the pairs that are bound, the latest first, and stops at the first difference.
The depth of a comparison is bounded by the number of objects, which only a cyclic graph exceeds.
`structuralEqual` compares in a world at rest, and `Reflection.equal` does the same in a running
program.
-/

namespace ObjectRuntime

namespace Equality

variable {κ α : Type} {m : Type → Type} [Monad m]

/-- Objects of the left graph that are bound to objects of the right one. -/
abbrev Binding := List (ObjId × ObjId)

namespace Binding

/-- The counterpart of an object of the left graph. -/
def counterpart? (b : Binding) (id : ObjId) : Option ObjId := List.lookup id b

/-- An object of the right graph is bound. -/
def isTaken (b : Binding) (id : ObjId) : Bool := b.any fun p => p.2 == id

end Binding

/-- A comparison: nothing if there is a difference, else what is bound after it. -/
abbrev Comparison (m : Type → Type) := Binding → m (Option Binding)

/-- What is equal without binding anything. -/
def check (equal : Bool) : Comparison m := fun b => pure (if equal then some b else none)

/-- One comparison after another. -/
def both (first second : Comparison m) : Comparison m := fun b => do
  match ← first b with
  | some b => second b
  | none => return none

/-- All comparisons from left to right. -/
def all (f : α → Comparison m) : List α → Comparison m
  | [] => check true
  | a :: rest => both (f a) (all f rest)

/-- Binds two objects if they are found equal. -/
def binding (left right : ObjId) (c : Comparison m) : Comparison m := fun b => do
  return (← c b).map ((left, right) :: ·)

/-- The greatest difference of equal floating point numbers, one part in a thousand million. -/
def tolerance : Double := Double.ofRatio false 1 1000000000

/-- Compares values that carry no objects. -/
def plainEqual : Value → Value → Bool
  | .float a, .float b => ((a.sub b).abs).le tolerance
  | a, b => a == b

/-- Compares two tensors by data type, shape and elements. -/
def tensorsEqual (w : World κ) (left right : ObjId) : Except Fault Bool :=
  match w.tensor? left, w.tensor? right with
  | some a, some b =>
    if a.dtype = b.dtype ∧ a.shape = b.shape then do
      return (← w.tensorBytes left a) == (← w.tensorBytes right b)
    else .ok false
  | _, _ => .ok false

/-- How the objects that two objects hold are compared. -/
structure Inner (m : Type → Type) where
  map : Bool
  objects : ObjId → ObjId → Bool → Comparison m

namespace Inner

/-- Compares two references. -/
def refs (inner : Inner m) (left right : Ref) (isDefinition : Bool) : Comparison m :=
  match left, right with
  | some l, some r => inner.objects l r isDefinition
  | none, none => check true
  | _, _ => check false

/-- Compares two values. -/
def values (inner : Inner m) (left right : Value) (isDefinition : Bool) : Comparison m :=
  match left.object?, right.object? with
  | some l, some r => inner.objects l r isDefinition
  | none, none => check (plainEqual left right)
  | _, _ => check false

/-- Compares two attributes. -/
def attr (inner : Inner m) (pair : Attr × Attr) : Comparison m :=
  if pair.1.key = pair.2.key then inner.values pair.1.value pair.2.value pair.1.isDefinition
  else check false

variable [Inquiry m]

/-- Compares the attributes of two objects. -/
def attrs (inner : Inner m) (w : World κ) (left right : ObjId) : Comparison m := fun b => do
  match ← Inquiry.attrs w left, ← Inquiry.attrs w right with
  | .ok ls, .ok rs => if ls.length = rs.length then all inner.attr (ls.zip rs) b else return none
  | _, _ => return none

/-- Compares objects of a reflected class. -/
def nodes (inner : Inner m) (w : World κ) (kind : NodeKind) (left right : ObjId)
    (isDefinition : Bool) : Comparison m :=
  match kind with
  | .variable =>
    if left = right then check true
    else if inner.map || isDefinition then binding left right (inner.attrs w left right)
    else check false
  | .graph => binding left right (inner.attrs w left right)
  | .tree => if left = right then check true else inner.attrs w left right

/-- The key of the right map that corresponds to a key of the left one. -/
def keyFor (w : World κ) (key : Ref) (b : Binding) : Ref :=
  match key with
  | none => none
  | some id => if (w.text? id).isSome then key else some ((b.counterpart? id).getD id)

/-- Compares an entry of the left map with its counterpart in the right one. -/
def entry (inner : Inner m) (w : World κ) (right : List (Ref × Ref)) (isDefinition : Bool)
    (e : Ref × Ref) : Comparison m := fun b => do
  Inquiry.askKey e.1
  match right.find? fun (k, _) => w.sameKey k (keyFor w e.1 b) with
  | some (_, v) => inner.refs e.2 v isDefinition b
  | none => return none

/-- Compares objects of classes that are not reflected. -/
def contents (inner : Inner m) (w : World κ) (left right : ObjId) (isDefinition : Bool) :
    Comparison m :=
  match w.payload? left, w.payload? right with
  | some (.text s), some (.text t) => check (s == t)
  | some (.shape s), some (.shape t) => check (s == t)
  | some (.array ls), some (.array rs) =>
    if ls.length = rs.length then
      all (fun (p : Ref × Ref) => inner.refs p.1 p.2 isDefinition) (ls.zip rs)
    else check false
  | some (.map ls), some (.map rs) =>
    if ls.length = rs.length then all (inner.entry w rs isDefinition) ls else check false
  | some (.tensor _), some (.tensor _) => fun b => do
    check (← Inquiry.ofFallible (tensorsEqual w left right)) b
  | _, _ => check false

end Inner

/-- Compares two objects whose contents are nested no deeper than the bound. -/
def objectsWithin [Inquiry m] (w : World κ) (mapFree : Bool) :
    Nat → ObjId → ObjId → Bool → Comparison m
  | 0, _, _, _ => fun _ => Inquiry.ofFallible (.error (.panic .stackExhausted))
  | depth + 1, left, right, isDefinition => fun b =>
    let inner : Inner m := ⟨mapFree, objectsWithin w mapFree depth⟩
    match b.counterpart? left with
    | some counterpart => check (counterpart == right) b
    | none =>
      if b.isTaken right || w.typeIndex left != w.typeIndex right then return none
      else do
        Inquiry.ask .schemas
        match w.schemaOf? left with
        | some schema => inner.nodes w schema.kind left right isDefinition b
        | none =>
          if left = right then return some b
          else do
            Inquiry.askContent left
            inner.contents w left right isDefinition b

/-- Compares two references in a world, of which questions are asked on the way. -/
def compare [Inquiry m] (w : World κ) (left right : Ref) (mapFree : Bool) : m Bool := do
  let inner : Inner m := ⟨mapFree, objectsWithin w mapFree (w.heap.cells.size + 1)⟩
  return (← inner.refs left right false []).isSome

end Equality

/-- Compares two object graphs by content. -/
def structuralEqual {κ : Type} (w : World κ) (left right : Ref) (mapFree : Bool) :
    Except Fault Bool :=
  Equality.compare w left right mapFree

/-- Compares two object graphs by content in a running program. -/
def Reflection.equal {κ : Type} (left right : Ref) (mapFree : Bool) : Run κ Bool := do
  Equality.compare (← get) left right mapFree

end ObjectRuntime
