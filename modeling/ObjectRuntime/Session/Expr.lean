import ObjectRuntime.Container.Box
import ObjectRuntime.Session.Basic
set_option autoImplicit false

/-!
# Value expressions

An expression says how to obtain a value: a plain one, one from a register, or a new object.
Evaluating it gives a value that owns a reference to its object.  A part of a container goes into
it as an object, so plain numbers are boxed and texts become strings.
-/

namespace ObjectRuntime

/-- How to obtain a value. -/
inductive Expr where
  | plain (v : Value)
  | register (name : String)
  | moved (name : String)
  | string (s : String)
  | array (elems : List Expr)
  | map (entries : List (Expr × Expr))
  | shape (dims : List Int)
  | box (c : BoxContent)
  | tensor (dtype : String) (shape : List Int) (data : Option Bytes)
  | function (f : SampleFunction)
  | module (kind : String)
  | root
  | unreflected
  | node (typeKey : String) (attrs : List (String × Expr))
  deriving Inhabited

namespace Session

/-- A new object as a value without a tag of its own. -/
def newObject (body : Run SessionCode ObjId) : Act Value := do
  return .object .object (← ofRun body)

/-- A new object as the value that carries it. -/
def newCarried (body : Run SessionCode ObjId) : Act Value :=
  ofRun do Run.encodeRef (some (← body)) false

/-- Converts a value that is given up to a reference of a static type. -/
def intoRef (t : RefType) (v : Value) : Act Ref :=
  ofRun (Run.releasing v.object?.toList (Run.decodeRef t v))

/-- A new tensor with the given content, or of zeros. -/
def newTensor (dtype : String) (shape : List Int) (data : Option Bytes) :
    Run SessionCode ObjId := do
  let dtype ← Run.ofExcept (World.parseDataType dtype)
  let id ← Tensor.zeros shape dtype .host
  Run.releasingOnFault [id] do
    match data with
    | some data =>
      let (_, t) ← Tensor.deref (some id)
      Tensor.fill id t data
    | none => pure ()
  return id

/-- Takes the value out of a register for a call that may take it over. -/
def takeMoved (name : String) : Act Value := do
  let v ← take name
  match v.object? with
  | some id =>
    let moved ← releasingOnFault [id] (ofRun (Run.travel (some id) true))
    if moved.object?.isNone then ofRun (Run.release id)
    return moved
  | none => return v

mutual

/-- Evaluates an expression.  The value owns a reference. -/
def eval : Expr → Act Value
  | .plain v => pure v
  | .register name => do
    let v ← register name
    ofRun (Run.retainValue v)
    return v
  | .moved name => takeMoved name
  | .string s => newObject (Run.create .string (.text s))
  | .array elems => do
    let refs ← evalRefs elems
    newObject (Run.create .array (.array refs))
  | .map entries => do
    let pairs ← evalEntries entries
    newObject do Run.create .map (.map (← Run.collectEntries pairs))
  | .shape dims => newObject (Run.create .shapeTuple (.shape dims))
  | .box c => newObject (Box.make c)
  | .tensor dtype shape data => newCarried (newTensor dtype shape data)
  | .function f => newCarried (Function.make (.program (SampleCode.anonymous f)) none)
  | .module kind => newCarried (Module.make kind)
  | .root => newObject (Run.create .root .plain)
  | .unreflected => newObject (Run.create Sample.plain .plain)
  | .node typeKey attrs => do
    let given ← evalAttrs attrs
    let ids := given.filterMap fun (_, v) => v.object?
    let r ← releasing ids (ofRun (createObject typeKey given))
    return .ofRef .object r

/-- Evaluates expressions to objects. -/
def evalRefs : List Expr → Act (List Ref)
  | [] => pure []
  | e :: rest => do
    let r ← intoRef .object (← eval e)
    let rs ← releasingOnFault r.toList (evalRefs rest)
    return r :: rs

/-- Evaluates keys and values to objects. -/
def evalEntries : List (Expr × Expr) → Act (List (Ref × Ref))
  | [] => pure []
  | (k, v) :: rest => do
    let key ← intoRef .object (← eval k)
    releasingOnFault key.toList do
      let value ← intoRef .object (← eval v)
      let rest ← releasingOnFault value.toList (evalEntries rest)
      return (key, value) :: rest

/-- Evaluates the values of attributes. -/
def evalAttrs : List (String × Expr) → Act (List (String × Value))
  | [] => pure []
  | (key, e) :: rest => do
    let v ← eval e
    let vs ← releasingOnFault v.object?.toList (evalAttrs rest)
    return (key, v.asResult) :: vs

end

variable {α : Type}

/-- Evaluates expressions from left to right. -/
def evalAll : List Expr → Act (List Value)
  | [] => pure []
  | e :: rest => do
    let v ← eval e
    let vs ← releasingOnFault v.object?.toList (evalAll rest)
    return v :: vs

/-- Evaluates an expression, uses its value and gives it up. -/
def withValue (e : Expr) (body : Value → Act α) : Act α := do
  let v ← eval e
  releasing v.object?.toList (body v)

/-- Evaluates expressions, uses their values and gives them up. -/
def withValues (es : List Expr) (body : List Value → Act α) : Act α := do
  let vs ← evalAll es
  releasing (vs.filterMap Value.object?) (body vs)

/-- Evaluates an expression to a reference of a static type. -/
def evalRef (t : RefType) (e : Expr) : Act Ref := do intoRef t (← eval e)

/-- Evaluates an expression to a reference of a static type, uses it and gives it up. -/
def withRef (t : RefType) (e : Expr) (body : Ref → Act α) : Act α := do
  let r ← evalRef t e
  releasing r.toList (body r)

end Session

end ObjectRuntime
