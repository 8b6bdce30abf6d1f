import ObjectRuntime.Reflection.Equality
set_option autoImplicit false

/-!
# Structural hashing

The hash of an object follows its content in the way in which structural equality does.  Variables
that stand where variables are defined, and all of them if free variables may be mapped, are hashed
by the order in which they are met, so that a consistent renaming does not change a hash.  Other
variables, and objects without a structure, are hashed by their place.

A traversal threads the hashes of the variables and graph nodes that it has met and the number of
variables among them.  `structuralHash` hashes in a world at rest, and `Reflection.hash` does the
same in a running program.
-/

namespace ObjectRuntime

namespace Hashing

variable {κ : Type} {m : Type → Type} [Monad m]

/-- The hashes already found, the latest first, and the number of variables met. -/
structure Memory where
  found : List (ObjId × UInt64)
  seen : UInt64

/-- A part of the traversal. -/
abbrev Hashed (m : Type → Type) := StateT Memory m UInt64

/-- Mixes a hash into another. -/
def combine (key value : UInt64) : UInt64 :=
  key ^^^ (value + 0x9e3779b9 + (key <<< (6 : UInt64)) + (key >>> (2 : UInt64)))

/-- The hash of a number of some bytes. -/
def ofNumber (width : Nat) (n : Int) : UInt64 := Sip.hash (Sip.number width n)

/-- The hash of an object's place. -/
def ofPlace (id : ObjId) : UInt64 :=
  ofNumber 8 (World.placeOf (some id)).toNat

/-- The hash of a floating point number, on the scale on which such numbers are equal. -/
def ofDouble (x : Double) : UInt64 := ofNumber 8 (x.div Equality.tolerance).roundAwayToI64

/-- The hash of a value that carries no object. -/
def ofPlain (v : Value) : UInt64 :=
  let content : UInt64 := match v with
    | .int n => ofNumber 8 n.val
    | .bool b => ofNumber 1 (World.boolNumber b)
    | .float x => ofDouble x
    | .text s => Sip.ofText s
    | .bytes b => Sip.hash (Sip.slice b)
    | .dataType d =>
      Sip.hash (Sip.number 1 d.code.toNat ++ Sip.number 1 d.bits.toNat
        ++ Sip.number 2 d.lanes.toNat)
    | .device d => Sip.hash (Sip.number 4 d.kind.toNat ++ Sip.number 4 d.unit.val)
    | .handle address | .tensorHandle address => ofNumber 8 address.toNat
    | .null | .object _ _ => 0
  combine (UInt64.ofNat v.typeCode.toNat) content

/-- The hash of a tensor: shape, data type and elements. -/
def ofTensor (w : World κ) (typeHash : UInt64) (id : ObjId) (t : Tensor) :
    Except Fault UInt64 := do
  let d := t.dtype
  let fields : List Nat := [d.code.toNat, d.bits.toNat, d.lanes.toNat]
  let dtype := fields.flatMap fun (n : Nat) => Sip.number 8 n
  let hash := combine typeHash (Sip.hash (Sip.numbers t.shape))
  let hash := combine hash (Sip.hash dtype)
  return combine hash (Sip.hash (Sip.slice (← w.tensorBytes id t)))

/-- How the objects that an object holds are hashed. -/
abbrev Inner (m : Type → Type) := ObjId → Bool → Hashed m

namespace Inner

/-- The hash of a reference. -/
def ref (inner : Inner m) (r : Ref) (isDefinition : Bool) : Hashed m :=
  match r with
  | some id => inner id isDefinition
  | none => pure 0

/-- The hash of a value. -/
def value (inner : Inner m) (v : Value) (isDefinition : Bool) : Hashed m :=
  match v.object? with
  | some id => inner id isDefinition
  | none => pure (ofPlain v)

/-- Mixes in an attribute, its key first. -/
def attr (inner : Inner m) (hash : UInt64) (a : Attr) : Hashed m := do
  return combine (combine hash (Sip.ofText a.key)) (← inner.value a.value a.isDefinition)

/-- Remembers a hash. -/
def remember (id : ObjId) (hash : UInt64) : StateT Memory m Unit :=
  modify fun memory => { memory with found := (id, hash) :: memory.found }

/-- The hash of an entry of a map. -/
def entry (inner : Inner m) (isDefinition : Bool) (e : Ref × Ref) : Hashed m := do
  let key ← inner.ref e.1 false
  let value ← inner.ref e.2 isDefinition
  return combine key value

variable [Inquiry m]

/-- Mixes in the attributes of an object. -/
def attrs (inner : Inner m) (w : World κ) (typeHash : UInt64) (id : ObjId) : Hashed m := do
  match ← Inquiry.attrs w id with
  | .ok attrs => attrs.foldlM inner.attr typeHash
  | .error _ => return typeHash

/-- The hash of an object of a reflected class. -/
def node (inner : Inner m) (w : World κ) (mapFree : Bool) (kind : NodeKind) (typeHash : UInt64)
    (id : ObjId) (isDefinition : Bool) : Hashed m :=
  match kind with
  | .variable =>
    if mapFree || isDefinition then do
      let hash := combine typeHash (← get).seen
      modify fun memory => { memory with seen := memory.seen + 1 }
      remember id hash
      return hash
    else pure (combine typeHash (ofPlace id))
  | .graph => do
    let hash ← inner.attrs w typeHash id
    remember id hash
    return hash
  | .tree => inner.attrs w typeHash id

/-- The hash of an object of a class that is not reflected.  The entries of a map are added up, so
that their order does not count. -/
def content (inner : Inner m) (w : World κ) (typeHash : UInt64) (id : ObjId)
    (isDefinition : Bool) : Hashed m :=
  match w.payload? id with
  | some (.text s) => pure (combine typeHash (Sip.ofText s))
  | some (.shape dims) => pure (combine typeHash (Sip.hash (Sip.numbers dims)))
  | some (.array elems) =>
    elems.foldlM (fun hash e => do return combine hash (← inner.ref e isDefinition))
      (combine typeHash (UInt64.ofNat elems.length))
  | some (.map entries) => do
    let sum ← entries.foldlM (fun sum e => do return sum + (← inner.entry isDefinition e)) 0
    return combine (combine typeHash (UInt64.ofNat entries.length)) sum
  | some (.tensor t) => Inquiry.ofFallible (ofTensor w typeHash id t)
  | _ => pure (combine typeHash (ofPlace id))

end Inner

/-- The hash of an object whose content is nested no deeper than the bound. -/
def objectWithin [Inquiry m] (w : World κ) (mapFree : Bool) : Nat → Inner m
  | 0, _, _ => Inquiry.ofFallible (.error (.panic .stackExhausted))
  | depth + 1, id, isDefinition => do
    let inner := objectWithin w mapFree depth
    match (← get).found.lookup id with
    | some hash => return hash
    | none =>
      let typeHash := (w.types.hashOf (w.typeIndex id)).toOption.getD 0
      Inquiry.ask .schemas
      match w.schemaOf? id with
      | some schema => inner.node w mapFree schema.kind typeHash id isDefinition
      | none =>
        Inquiry.askContent id
        inner.content w typeHash id isDefinition

/-- The hash of a reference in a world, of which questions are asked on the way. -/
def hashOf [Inquiry m] (w : World κ) (r : Ref) (mapFree : Bool) : m UInt64 := do
  let inner : Inner m := objectWithin w mapFree (w.heap.cells.size + 1)
  return (← (inner.ref r false).run ⟨[], 0⟩).1

end Hashing

/-- The hash of an object graph. -/
def structuralHash {κ : Type} (w : World κ) (r : Ref) (mapFree : Bool) : Except Fault UInt64 :=
  Hashing.hashOf w r mapFree

/-- The hash of an object graph in a running program. -/
def Reflection.hash {κ : Type} (r : Ref) (mapFree : Bool) : Run κ UInt64 := do
  Hashing.hashOf (← get) r mapFree

end ObjectRuntime
