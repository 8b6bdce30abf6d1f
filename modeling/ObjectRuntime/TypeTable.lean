import ObjectRuntime.Error
import ObjectRuntime.Hash.Sip
set_option autoImplicit false

/-!
# The table of object types

Every object type has a key and an index.  The first indices are reserved for types that claim
them; the others are handed out on first use.  A type may reserve slots for its children right
behind its own index, so that most membership tests are range comparisons; when they run out, a
child goes to the end of the table, unless its parent or an ancestor forbids it.

`TypeTable.allocate` registers a type, `TypeTable.derivedFrom` follows parent links, and
`TypeTable.isInstance` is the membership test with its short cuts.
-/

namespace ObjectRuntime

/-- What the table knows of a registered type.  The slots count the type itself. -/
structure TypeInfo where
  index : Nat
  parent : Nat
  slots : Nat
  allocated : Nat
  slotsCanOverflow : Bool
  key : String
  deriving DecidableEq, Repr, Inhabited

/-- The hash of the type's key. -/
def TypeInfo.keyHash (info : TypeInfo) : UInt64 := Sip.ofText info.key

/-- What a type asks for when it is registered. -/
structure TypeDecl where
  key : String
  claimed : Option Nat
  childSlots : Nat
  slotsCanOverflow : Bool
  isFinal : Bool
  deriving DecidableEq, Repr

/-- An object type together with all its base types, down to the root. -/
inductive ObjectClass where
  | root
  | derived (decl : TypeDecl) (base : ObjectClass)
  deriving DecidableEq, Repr

namespace ObjectClass

/-- The key of the root type. -/
def rootKey : String := "runtime.Object"

/-- The type's key. -/
def key : ObjectClass → String
  | .root => rootKey
  | .derived decl _ => decl.key

/-- The type has no subtypes. -/
def isFinal : ObjectClass → Bool
  | .root => false
  | .derived decl _ => decl.isFinal

/-- Slots reserved for children. -/
def childSlots : ObjectClass → Nat
  | .root => 0
  | .derived decl _ => decl.childSlots

/-- Whether children may go to the end of the table. -/
def slotsCanOverflow : ObjectClass → Bool
  | .root => true
  | .derived decl _ => decl.slotsCanOverflow

/-- The base type; the root is its own. -/
def base : ObjectClass → ObjectClass
  | .root => .root
  | .derived _ base => base

end ObjectClass

/-- The registered types by index, the index of each key, and the indices that the classes of this
program have looked up so far. -/
structure TypeTable where
  entries : Array (Option TypeInfo)
  keys : List (String × Nat)
  known : List (String × Nat)
  deriving Repr

namespace TypeTable

/-- Index of the root type. -/
def rootIndex : Nat := 0

/-- First index that is handed out and not claimed. -/
def firstDynamic : Nat := 8

/-- The root type alone. -/
def initial : TypeTable where
  entries := (Array.replicate firstDynamic none).set! rootIndex
    (some ⟨rootIndex, rootIndex, 0, 1, true, ObjectClass.rootKey⟩)
  keys := [(ObjectClass.rootKey, rootIndex)]
  known := []

/-- The entry of an index, if a type is registered there. -/
def typeAt? (t : TypeTable) (index : Nat) : Option TypeInfo := t.entries[index]?.join

/-- What is registered at an index. -/
def info (t : TypeTable) (index : Nat) : Except Error TypeInfo :=
  match t.typeAt? index with
  | some info => .ok info
  | none => .error (.typeIndexMissing index)

/-- The key of an index. -/
def keyOf (t : TypeTable) (index : Nat) : Except Error String := TypeInfo.key <$> t.info index

/-- The hash of the key of an index. -/
def hashOf (t : TypeTable) (index : Nat) : Except Error UInt64 :=
  TypeInfo.keyHash <$> t.info index

/-- The index of a key, if it is registered. -/
def index? (t : TypeTable) (key : String) : Option Nat := t.keys.lookup key

/-- The index of a key. -/
def indexOf (t : TypeTable) (key : String) : Except Error Nat :=
  match t.index? key with
  | some index => .ok index
  | none => .error (.typeKeyMissing key)

/-- The key of an index as it is shown. -/
def showKey (t : TypeTable) (index : Nat) : String :=
  match t.typeAt? index with
  | some info => info.key
  | none => s!"<unregistered type {index}>"

/-- Puts a new type at an index. -/
def put (t : TypeTable) (info : TypeInfo) : TypeTable :=
  { t with
    entries := t.entries.setIfInBounds info.index (some info)
    keys := (info.key, info.index) :: t.keys }

/-- Hands out `slots` slots of the parent's reserve. -/
def reserveIn (t : TypeTable) (parent : TypeInfo) (slots : Nat) : TypeTable :=
  let parent := { parent with allocated := parent.allocated + slots }
  { t with entries := t.entries.setIfInBounds parent.index (some parent) }

/-- Appends free slots to the table. -/
def extend (t : TypeTable) (slots : Nat) : TypeTable :=
  { t with entries := t.entries ++ Array.replicate slots none }

/-- Chooses the index of a new type of `slots` slots under a parent. -/
def place (t : TypeTable) (key : String) (claimed : Option Nat) (parent : TypeInfo)
    (slots : Nat) : Except Fault (TypeTable × Nat) := do
  match claimed with
  | some index =>
    match t.entries[index]? with
    | none => .error (.error (.typeIndexMissing index))
    | some (some taken) => .error (.error (.typeIndexTaken index taken.key key))
    | some none =>
      if parent.index < index then .ok (t, index) else .error (.panic .slotBelowParent)
  | none =>
    let wanted ← checkedOp .u32 .add parent.allocated slots
    if wanted ≤ parent.slots then
      .ok (t.reserveIn parent slots, parent.index + parent.allocated)
    else if !parent.slotsCanOverflow then
      .error (.error (.typeSlotsExhausted parent.key))
    else
      let _ ← checkedOp .u32 .add t.entries.size slots
      .ok (t.extend slots, t.entries.size)

/-- The result of an operation that may change the table before it fails. -/
abbrev Outcome (α : Type) := Except Fault α × TypeTable

/-- Registers a type at its index.  The reserve of a parent may reach beyond the end of the table;
what lies there cannot be taken, but is no longer free either. -/
def settle (t : TypeTable) (info : TypeInfo) : Outcome Nat :=
  if info.index < t.entries.size then (.ok info.index, t.put info)
  else (.error (.panic (.slotBeyondTable t.entries.size info.index)), t)

/-- Makes a place for a new type under its parent, and writes its entry.  A type inherits from its
parent that its children may not overflow. -/
def draft (t : TypeTable) (key : String) (claimed : Option Nat) (parent : TypeInfo)
    (childSlots : Nat) (slotsCanOverflow : Bool) : Except Fault (TypeTable × TypeInfo) := do
  let slots ← checkedOp .u32 .add childSlots 1
  let (t, index) ← t.place key claimed parent slots.toNat
  .ok (t, ⟨index, parent.index, slots.toNat, 1, slotsCanOverflow && parent.slotsCanOverflow, key⟩)

/-- Registers a type of a new key under its parent. -/
def allocateUnder (t : TypeTable) (key : String) (claimed : Option Nat) (parent : TypeInfo)
    (childSlots : Nat) (slotsCanOverflow : Bool) : Outcome Nat :=
  match t.draft key claimed parent childSlots slotsCanOverflow with
  | .ok (t, info) => t.settle info
  | .error fault => (.error fault, t)

/-- Registers a type under the parent at an index, or finds it if its key is registered. -/
def allocate (t : TypeTable) (key : String) (claimed : Option Nat) (parentIndex : Nat)
    (childSlots : Nat) (slotsCanOverflow : Bool) : Outcome Nat :=
  match t.index? key with
  | some index => (.ok index, t)
  | none =>
    match (t.typeAt? parentIndex).filter (·.index = parentIndex) with
    | none => (.error (.error (.typeIndexMissing parentIndex)), t)
    | some parent => t.allocateUnder key claimed parent childSlots slotsCanOverflow

/-! ## Classes of the program -/

/-- Registers a type once the index of its base is known. -/
def registerUnder (decl : TypeDecl) : Outcome Nat → Outcome Nat
  | (.error fault, t) => (.error fault, t)
  | (.ok parent, t) =>
    t.allocate decl.key decl.claimed parent decl.childSlots decl.slotsCanOverflow

/-- The index of a class, which is registered on first use, after its base, and remembered. -/
def touch (t : TypeTable) : ObjectClass → Outcome Nat
  | .root => (.ok rootIndex, t)
  | .derived decl base =>
    match t.known.lookup decl.key with
    | some index => (.ok index, t)
    | none =>
      match registerUnder decl (t.touch base) with
      | (.ok index, t) => (.ok index, { t with known := (decl.key, index) :: t.known })
      | (.error (.error cause), t) => (.error (.panic (.typeRegistration decl.key cause)), t)
      | (.error fault, t) => (.error fault, t)

/-- Registers a class whether or not it is remembered; its base is looked up first. -/
def register (t : TypeTable) : ObjectClass → Outcome Nat
  | .root => (.ok rootIndex, t)
  | .derived decl base => registerUnder decl (t.touch base)

/-- The index of a class that has been looked up before. -/
def classIndex? (t : TypeTable) (c : ObjectClass) : Option Nat :=
  match c with
  | .root => some rootIndex
  | .derived decl _ => t.known.lookup decl.key

/-! ## Membership -/

/-- Follows parent links from `child` until the index is no longer above `ancestor`. -/
def climbs (t : TypeTable) (ancestor : Nat) : Nat → Nat → Bool
  | 0, child => child == ancestor
  | fuel + 1, child =>
    if child > ancestor then
      match t.typeAt? child with
      | some info => t.climbs ancestor fuel info.parent
      | none => false
    else child == ancestor

/-- The type `child` is `ancestor` or one of its descendants. -/
def derivedFrom (t : TypeTable) (child ancestor : Nat) : Bool := t.climbs ancestor child child

/-- The membership test for objects of type `index` in a class whose index is `first`: the root
holds everything, a final type only itself, and the reserved range only subtypes; a type that does
not overflow has no others. -/
def isInstance (t : TypeTable) (index first : Nat) (c : ObjectClass) : Bool :=
  if first = rootIndex then true
  else if c.isFinal then index == first
  else if index ≥ first ∧ index - first ≤ c.childSlots then true
  else if !c.slotsCanOverflow ∨ index < first then false
  else t.derivedFrom index first

end TypeTable

end ObjectRuntime
