import ObjectRuntime.Container.Show
import ObjectRuntime.Session.Values
set_option autoImplicit false

/-!
# Steps on functions and modules

Functions are called with the values of expressions, registered under names, wrapped in types, and
kept in modules.
-/

namespace ObjectRuntime.Session

/-! ## Calls -/

/-- Calls a function. -/
def call (dest : Target) (f : FunctionExpr) (args : List Expr) : Act Report :=
  withFunction f fun f => withValues args fun args => do give dest (← ofRun (Function.invoke f args))

/-- Calls a global function with values that are borrowed. -/
def callGlobal (name : String) (args : List Value) : Act Value := do
  let f ← ofRun (Registry.get name)
  ofRun (Function.invoke f args)

/-- Makes an assembled call: the function is given, or chosen by name, or missing, and the output
stands in for a missing result. -/
def assemble (dest : Target) (f : Option FunctionExpr) (name : Option String) (args : List Expr)
    (output : Option Expr) : Act Report := do
  let start ← match f with
    | some f => CallBuilder.ofFunction <$> evalFunction f
    | none => pure .empty
  releasing ((start.function.bind id).toList) do
    let chosen ← match name with
      | some name => do pure (start.withFunction (← ofRun (Registry.lookup name)))
      | none => pure start
    withValues args fun args => do
      let filled := args.foldl CallBuilder.addArg chosen
      match output with
      | some e => withValue e fun v => do give dest (← ofRun (filled.withOutput v).invoke)
      | none => give dest (← ofRun filled.invoke)

/-- Converts an argument to the type of its parameter and back to a value. -/
def throughType (t : ValueType) (v : Value) : Act Value := do
  match t with
  | .any => return v
  | t => ofRun (Run.encode t (← ofRun (Run.decode t v)))

/-- The result of a typed call. -/
def viewResult : (t : ValueType) → t.Carrier → Act Report
  | .f64, x => pure (.double x)
  | .any, v => releasing v.object?.toList (view v)
  | .ref _, r => releasing r.toList (view (.ofRef .object r))
  | t, x => viewEncoded t x

/-- Calls a function through a signature; missing arguments are nothing. -/
def callTyped (f : FunctionExpr) (params : List ValueType) (result : ValueType)
    (args : List Expr) : Act Report :=
  withFunction f fun f => withValues args fun args => do
    let filled := args ++ List.replicate (params.length - args.length) .null
    let typed ← (params.zip filled).mapM fun (t, v) => throughType t v
    viewResult result (← ofRun (Function.callAs f result typed))

/-- Calls the wrapper that bears the name of its global function, to which the arguments are handed
over. -/
def callWrapper (name : String) (result : ValueType) (args : List Expr) : Act Report :=
  withValues args fun args => do
    viewEncoded result (← ofRun (Function.callWrapper ⟨name, name⟩ result args))

/-- Compares what the global function for the places of objects gives for two values. -/
def comparePlaces (a b : Expr) : Act Report :=
  withValue a fun a => withValue b fun b => do
    let x ← callGlobal Builtin.pointerHash.name [a]
    let y ← callGlobal Builtin.pointerHash.name [b]
    return .record [("eq", .flag (x == y)), ("zero", .list [.flag (x == .int 0), .flag (y == .int 0)])]

/-- The structural hash by the global function for it. -/
def hashByGlobal (e : Expr) (mapFree : Bool) : Act Report :=
  withValue e fun v => do view (← callGlobal Builtin.structuralHash.name [v, .bool mapFree])

/-- A function for inspection. -/
def functionText (f : Ref) : Act Report := do return .shown ((← currentWorld).showFunction f)

/-! ## Registration -/

/-- A new sample function with a name for its errors. -/
def newFunction (f : SampleFunction) (name : String) : Run SessionCode Ref :=
  some <$> Function.make (.program (.function f name)) none

/-- Shows a new function. -/
def giveNewFunction (dest : Target) (f : SampleFunction) (name : String) : Act Report := do
  giveCarried dest (← ofRun (newFunction f name))

/-- Registers a new sample function. -/
def registerSample (name : String) (f : SampleFunction) (override : Bool) : Act Report := do
  ofRun do Registry.register name (← newFunction f name) override
  return .nothing

/-- Registers a function that exists. -/
def registerFunction (name : String) (f : FunctionExpr) (override : Bool) : Act Report := do
  let f ← evalFunction f
  ofRun (Registry.register name f override)
  return .nothing

/-- Removes a name and tells whether it was registered. -/
def unregister (name : String) : Act Report := do return .flag (← ofRun (Registry.remove name))

/-- The function under a name. -/
def registered (dest : Target) (name : String) : Act Report := do
  let f ← ofRun (Registry.lookup name)
  ofRun (Run.retainRef f.join)
  giveCarried dest f.join

/-- All names in order. -/
def registeredNames : Act Report := do return .texts (← ofRun Registry.list)

/-! ## Modules -/

/-- The module behind a reference, which has to be there. -/
def moduleOf (r : Ref) : Act ObjId :=
  match r with
  | some id => pure id
  | none => ofRun (Run.panic (.nullDereference "Module"))

/-- The system library. -/
def systemLibrary (dest : Target) : Act Report := do
  giveCarried dest (some (← ofRun Module.systemLibrary))

/-- Adds a function and answers with the names of all. -/
def addFunction (r : Ref) (name : String) (f : FunctionExpr) : Act Report := do
  let f ← evalFunction f
  let id ← releasingOnFault f.toList (moduleOf r)
  ofRun (Module.register id name f)
  return .texts (Module.functionNames (Module.table (← currentWorld) id))

/-- Adds an import and answers with the number of all. -/
def addImport (r : Ref) (imported : Expr) : Act Report := do
  let b ← evalRef .module imported
  let id ← releasingOnFault b.toList (moduleOf r)
  ofRun (Module.addImport id b)
  return .count (Module.table (← currentWorld) id).imports.length

/-- The function with a name, if there is one. -/
def moduleFunction (dest : Target) (r : Ref) (name : String) (imports : Bool) : Act Report := do
  giveCarried dest (← ofRun (Module.lookup (← moduleOf r) name imports)).join

/-- The function with a name, which has to exist. -/
def moduleFunctionChecked (dest : Target) (r : Ref) (name : String) (imports : Bool) : Act Report := do
  giveCarried dest (← ofRun (Module.lookupChecked (← moduleOf r) name imports))

/-- The entry function of the module itself. -/
def moduleEntry (dest : Target) (r : Ref) : Act Report := moduleFunction dest r Module.entryName false

/-- All that can be asked of a module. -/
def describeModule (r : Ref) : Act Report := do
  let w ← currentWorld
  let table := Module.table w (← moduleOf r)
  let kinds ← table.imports.mapM fun i => do return (Module.table w (← moduleOf i)).kind
  return .record [("kind", .text table.kind), ("names", .texts (Module.functionNames table)),
    ("imports", .texts kinds)]

end ObjectRuntime.Session
