import ObjectRuntime.Proofs.Reflection.Paths
import ObjectRuntime.Proofs.Text.Descriptions
import ObjectRuntime.Tensor.Memory
import Mathlib.Data.List.Forall2
set_option autoImplicit false

/-!
# The content of object graphs

What can be seen of a graph is what can be seen of each object that a path of places leads to.  Two
graphs, in two worlds, have the same content if every path leads in both to objects that look the
same, or in both to nothing.  `World.Copies` is the local form of this: objects that look the same
and hold copies of each other's references at the same places.

`World.IsMade` describes the objects that the classes of the runtime make, and
`World.HasType` the values that the fields of reflected classes hold.
-/

namespace ObjectRuntime

open Relation (ReflTransGen)

/-- A place at which an object holds a reference: an attribute, an element of an array, or the key
or the value of an entry of a map. -/
inductive Place where
  | attr (name : String)
  | element (i : Nat)
  | key (i : Nat)
  | value (i : Nat)
  deriving DecidableEq, Repr

namespace World

variable {κ : Type} {w w' : World κ} {a b id : ObjId} {R : ObjId → ObjId → Prop}

/-! ## What is seen of one object -/

/-- The reference at a place of an object, if there is such a place. -/
def heldAt (w : World κ) (id : ObjId) : Place → Option Ref
  | .attr name => ((w.shown id).find? fun a => a.key == name).map fun a => a.value.object?
  | .element i => (w.elements (some id))[i]?
  | .key i => ((w.entries (some id))[i]?).map (·.1)
  | .value i => ((w.entries (some id))[i]?).map (·.2)

/-- The extents in a shape. -/
def shape? (w : World κ) (id : ObjId) : Option (List Int) :=
  match w.payload? id with
  | some (.shape dims) => some dims
  | _ => none

/-- The element type, the extents and the bytes of a tensor. -/
def tensorContent? (w : World κ) (id : ObjId) : Option (DataType × List Int × Except Fault Bytes) :=
  (w.tensor? id).map fun t => (t.dtype, t.shape, w.tensorBytes id t)

/-- The bytes of a tensor can be told from the tensors of the world. -/
theorem tensorBytes_congr (hsize : w'.heap.cells.size = w.heap.cells.size)
    (htensor : ∀ id, w'.tensor? id = w.tensor? id) (id : ObjId) (t : Tensor) :
    w'.tensorBytes id t = w.tensorBytes id t := by
  have hhome (fuel : Nat) (id : ObjId) : w'.memoryHome fuel id = w.memoryHome fuel id := by
    induction fuel generalizing id with
    | zero => rfl
    | succ fuel ih => simp only [memoryHome, htensor, ih]
  simp only [tensorBytes, memoryBytes, hsize, hhome, htensor]

/-- A text is the content of a string. -/
theorem payload?_of_text? {s : String} (h : w.text? a = some s) : w.payload? a = some (.text s) := by
  unfold text? at h
  split at h
  · rename_i t hcontent
    rw [hcontent, Option.some.inj h]
  · cases h

theorem payload?_of_tensor? {t : Tensor} (h : w.tensor? a = some t) :
    w.payload? a = some (.tensor t) := by
  unfold tensor? at h
  split at h
  · rename_i t' hcontent
    rw [hcontent, Option.some.inj h]
  · cases h

/-- The class that a content belongs to, if it is not that of an object of a reflected class. -/
def plainClass? : Payload κ → Option ObjectClass
  | .text _ => some .string
  | .shape _ => some .shapeTuple
  | .array _ => some .array
  | .map _ => some .map
  | .tensor _ => some .tensor
  | _ => none

/-- Attributes show the same value; which object it carries is not looked at. -/
def SameValue : Value → Value → Prop
  | .float x, .float y => x.SameNumber y
  | .object tag _, .object tag' _ => tag = tag'
  | v, v' => v = v'

/-- Attributes have the same name and role and show the same value. -/
def SameAttr (attr attr' : Attr) : Prop :=
  attr.key = attr'.key ∧ attr.isDefinition = attr'.isDefinition ∧
    SameValue attr.value attr'.value

/-- Two objects look the same, apart from the objects they hold. -/
structure LooksLike (w w' : World κ) (a b : ObjId) : Prop where
  typeKey : w.typeKey a = w'.typeKey b
  text : w.text? a = w'.text? b
  shape : w.shape? a = w'.shape? b
  tensor : w.tensorContent? a = w'.tensorContent? b
  attrs : List.Forall₂ SameAttr (w.shown a) (w'.shown b)

/-! ## Paths of places -/

/-- The reference that a path of places leads to. -/
def reach (w : World κ) : Ref → List Place → Option Ref
  | r, [] => some r
  | some id, p :: path => (w.heldAt id p).bind fun r => w.reach r path
  | none, _ :: _ => none

/-- Both are places of objects that look the same, both hold nothing, or neither is a place. -/
def SameAt (w w' : World κ) : Option Ref → Option Ref → Prop
  | some (some a), some (some b) => LooksLike w w' a b
  | some none, some none => True
  | none, none => True
  | _, _ => False

/-- Every path leads to the same in both graphs. -/
def SameContent (w w' : World κ) (r r' : Ref) : Prop :=
  ∀ path, SameAt w w' (w.reach r path) (w'.reach r' path)

/-- References to nothing, or to related objects. -/
def RefRel (R : ObjId → ObjId → Prop) : Ref → Ref → Prop
  | none, none => True
  | some a, some b => R a b
  | _, _ => False

theorem RefRel.mono {R' : ObjId → ObjId → Prop} {r r' : Ref} (hr : RefRel R r r')
    (hR : ∀ a b, r = some a → r' = some b → R a b → R' a b) : RefRel R' r r' := by
  cases r with
  | none =>
      cases r' with
      | none => trivial
      | some b => exact hr.elim
  | some a =>
      cases r' with
      | none => exact hr.elim
      | some b => exact hR a b rfl rfl hr

/-- Neither is a place, or both hold related references. -/
def HeldRel (R : ObjId → ObjId → Prop) : Option Ref → Option Ref → Prop
  | none, none => True
  | some r, some r' => RefRel R r r'
  | _, _ => False

/-- The objects look the same and hold related references at the same places. -/
structure Copies (w w' : World κ) (R : ObjId → ObjId → Prop) (a b : ObjId) : Prop where
  looks : LooksLike w w' a b
  held : ∀ p, HeldRel R (w.heldAt a p) (w'.heldAt b p)

/-- Related references lead to graphs of the same content if related objects are copies. -/
theorem sameContent_of_copies (h : ∀ a b, R a b → Copies w w' R a b) {r r' : Ref}
    (hr : RefRel R r r') : SameContent w w' r r' := by
  intro path
  induction path generalizing r r' with
  | nil =>
      cases r with
      | none =>
          cases r' with
          | none => trivial
          | some b => exact hr.elim
      | some a =>
          cases r' with
          | none => exact hr.elim
          | some b => exact (h a b hr).looks
  | cons p path ih =>
      cases r with
      | none =>
          cases r' with
          | none => trivial
          | some b => exact hr.elim
      | some a =>
          cases r' with
          | none => exact hr.elim
          | some b =>
              have hheld := (h a b hr).held p
              simp only [reach]
              cases hp : w.heldAt a p with
              | none =>
                  cases hp' : w'.heldAt b p with
                  | none => trivial
                  | some r' => simp [hp, hp', HeldRel] at hheld
              | some r =>
                  cases hp' : w'.heldAt b p with
                  | none => simp [hp, hp', HeldRel] at hheld
                  | some r' =>
                      rw [hp, hp'] at hheld
                      exact ih hheld

end World

end ObjectRuntime
