import ObjectRuntime.World
set_option autoImplicit false

/-!
# Membership

How an object travels as a value, and whether a reference is of a static type.  The world answers
such questions; the operations of this module ask them of a program that is running, where asking
for a class registers it.  Once every class is registered, asking changes nothing.
-/

namespace ObjectRuntime

variable {κ : Type}

/-! ## How objects travel -/

namespace World

/-- The number in a box. -/
def boxed? (w : World κ) (id : ObjId) : Option Value := do
  let content ← w.payload? id
  if w.isInstance id .boxBool then .bool <$> content.bool?
  else if w.isInstance id .boxInt then .int <$> content.int?
  else if w.isInstance id .boxFloat then .float <$> content.double?
  else none

/-- The value that carries an object: members of the classes of tensors, modules and functions have
tags of their own, whatever they hold, and boxes travel as the numbers in them. -/
def classify (w : World κ) (id : ObjId) (moved : Bool) : Value :=
  if w.isInstance id .tensor then .object .tensor id
  else if w.isInstance id .module then .object .module id
  else if w.isInstance id .function then .object .function id
  else (w.boxed? id).getD (.object (if moved then .moved else .object) id)

/-- The value that carries a reference. -/
def classifyRef (w : World κ) (r : Ref) (moved : Bool) : Value :=
  match r with
  | some id => w.classify id moved
  | none => .null

/-- The value that shows a reference stored in an object: boxes stay objects. -/
def showRef (w : World κ) (r : Ref) : Value :=
  match r with
  | none => .null
  | some id =>
    match w.classify id false with
    | .object tag id => .object tag id
    | _ => .object .object id

/-- The value with a boxed number taken out of its box. -/
def unboxed (w : World κ) (v : Value) : Value :=
  match v.object? with
  | some id => w.classify id false
  | none => v

/-! ## Checks of references -/

/-- The first element with a mismatch, its position counted from `start`. -/
def firstMismatch (check : Ref → Option String) (start : Nat) : List Ref → Option (Nat × String)
  | [] => none
  | r :: rest =>
    match check r with
    | some m => some (start, m)
    | none => firstMismatch check (start + 1) rest

/-- Describes the first part of what a reference refers to that is not of the static type.  Nothing
is of every type. -/
def mismatch? (w : World κ) : RefType → Ref → Option String
  | _, none => none
  | .named _ cls, some id => if w.isInstance id cls then none else some (w.typeKey id)
  | .array elem, some id =>
    match w.payload? id with
    | some (.array elems) =>
      (firstMismatch (w.mismatch? elem) 0 elems).map fun (i, m) => s!"Array[index {i}: {m}]"
    | _ => some (w.typeKey id)
  | .map key value, some id =>
    match w.payload? id with
    | some (.map entries) =>
      entries.findSome? fun (k, v) =>
        match w.mismatch? key k with
        | some m => some ("Map[" ++ m ++ ", " ++ value.typeName ++ "]")
        | none => (w.mismatch? value v).map fun m => "Map[" ++ key.typeName ++ ", " ++ m ++ "]"
    | _ => some (w.typeKey id)

/-- The reference is checked against a static type and passed on as it is. -/
def downcast (w : World κ) (t : RefType) (r : Ref) : Except Error Ref :=
  match w.mismatch? t r with
  | none => .ok r
  | some m => .error (.typeMismatch t.typeName m)

/-- Two references are the same key: strings are compared by content and all other objects by
identity. -/
def sameKey (w : World κ) (a b : Ref) : Bool :=
  match a.bind w.text?, b.bind w.text? with
  | some s, some t => s == t
  | _, _ => a == b

end World

/-! ## Asking -/

namespace Run

variable {α : Type}

/-- Asks whether an object belongs to one class after another, up to the first that it belongs to.
A class that is asked for is registered. -/
def askClasses (id : ObjId) : List ObjectClass → Run κ Unit
  | [] => pure ()
  | c :: rest => do
    let _ ← touch c
    if !(← get).isInstance id c then askClasses id rest

/-- Asks about one thing after another, up to the first that does not pass. -/
def askWhile (ask : α → Run κ Unit) (passes : World κ → α → Bool) : List α → Run κ Unit
  | [] => pure ()
  | a :: rest => do
    ask a
    if passes (← get) a then askWhile ask passes rest

/-- Asks for the classes that a check against a static type looks at. -/
def askType : RefType → Ref → Run κ Unit
  | _, none => pure ()
  | .named _ cls, some id => askClasses id [cls]
  | .array elem, some id => do
    askClasses id [.array]
    askWhile (askType elem) (fun w r => (w.mismatch? elem r).isNone) ((← get).elements (some id))
  | .map key value, some id => do
    askClasses id [.map]
    askWhile
      (fun (e : Ref × Ref) => do
        askType key e.1
        if ((← get).mismatch? key e.1).isNone then askType value e.2)
      (fun w e => (w.mismatch? key e.1).isNone && (w.mismatch? value e.2).isNone)
      ((← get).entries (some id))

/-- Asks for the class that tells how a key is compared. -/
def askKey (key : Ref) : Run κ Unit :=
  match key with
  | some id => askClasses id [.string]
  | none => pure ()

/-- The classes that tell how an object travels as a value. -/
def travelClasses : List ObjectClass :=
  [.tensor, .module, .function, .boxBool, .boxInt, .boxFloat]

/-- The value that carries a reference. -/
def travel (r : Ref) (moved : Bool) : Run κ Value := do
  if let some id := r then askClasses id travelClasses
  return (← get).classifyRef r moved

/-- Reads an answer that depends on the world but does not change it. -/
def query (f : World κ → Except Error α) : Run κ α := do ofExcept (f (← get))

/-- Reads an answer about a value, whose object is first asked for some classes. -/
def queryAsking (classes : List ObjectClass) (v : Value) (f : World κ → Except Error α) :
    Run κ α := do
  if let some id := v.object? then askClasses id classes
  query f

/-- Checks a reference against a static type and passes it on as it is. -/
def downcast (t : RefType) (r : Ref) : Run κ Ref := do
  askType t r
  query (·.downcast t r)

end Run

end ObjectRuntime
