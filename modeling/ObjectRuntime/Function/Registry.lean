import ObjectRuntime.Function.Code
set_option autoImplicit false

/-!
# The registry of global functions

Functions are registered under names.  A registered function is never destroyed: the registry keeps
a reference to it even after its name has been given to another function or removed.  The registry
is made when it is first used, and starts with the built-in functions.
-/

namespace ObjectRuntime.Registry

variable {κ ε : Type}

/-! ## Names -/

/-- The function under a name. -/
def find? (w : World κ) (name : String) : Option Ref := w.functions.lookup name

/-- All names in order. -/
def names (w : World κ) : List String := NameTable.sortedNames w.functions

/-- Changes the names of a registry that has been made. -/
def update (f : List (String × Ref) → List (String × Ref)) : Run κ Unit :=
  modify fun w => { w with registry := .ready (f w.functions) }

/-! ## Uses -/

/-- The built-in functions by name. -/
def builtins : Run (FunctionCode ε) (List (String × Ref)) :=
  Builtin.all.mapM fun b => do return (b.name, some (← Function.make (.builtin b) none))

/-- Makes the registry if it has not been used yet. -/
def prepare : Run (FunctionCode ε) Unit :=
  discard (Run.demand World.registry (fun registry w => { w with registry })
    (NameTable.ofList <$> builtins))

/-- The function under a name, if there is one. -/
def lookup (name : String) : Run (FunctionCode ε) (Option Ref) := do
  prepare
  return find? (← get) name

/-- The function under a name, which has to exist. -/
def get (name : String) : Run (FunctionCode ε) Ref := do
  match ← lookup name with
  | some f => return f
  | none => Run.fail (.functionMissing name)

/-- Registers a function, of which a reference is taken over.  A name that is taken may be given
anew only on request. -/
def register (name : String) (f : Ref) (override : Bool) : Run (FunctionCode ε) Unit := do
  let known ← Run.releasingOnFault f.toList (lookup name)
  if known.isSome && !override then
    Run.releaseAll f.toList
    Run.fail (.functionExists name)
  else update (NameTable.put name f)

/-- Removes a name and tells whether it was registered. -/
def remove (name : String) : Run (FunctionCode ε) Bool := do
  let found := (← lookup name).isSome
  update (NameTable.erase name)
  return found

/-- All names in order. -/
def list : Run (FunctionCode ε) (List String) := do
  prepare
  return names (← MonadState.get)

end ObjectRuntime.Registry
