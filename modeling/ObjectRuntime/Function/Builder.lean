import ObjectRuntime.Function.Registry
set_option autoImplicit false

/-!
# Assembled calls

A call is assembled from a function, arguments and a value that stands in for a missing result.
A typed call converts its arguments to values and its result from a value.  A wrapper is a typed
call of a global function, which is looked up until it is found and then remembered.
-/

namespace ObjectRuntime

/-- A call that is being assembled. -/
structure CallBuilder where
  function : Option Ref
  args : List Value
  output : Option Value
  deriving DecidableEq, Repr

namespace CallBuilder

variable {ε : Type}

/-- Nothing yet. -/
def empty : CallBuilder := ⟨none, [], none⟩

/-- A call of a function. -/
def ofFunction (f : Ref) : CallBuilder := ⟨some f, [], none⟩

/-- Chooses the function to call, or none. -/
def withFunction (b : CallBuilder) (f : Option Ref) : CallBuilder := { b with function := f }

/-- Adds an argument. -/
def addArg (b : CallBuilder) (v : Value) : CallBuilder := { b with args := b.args ++ [v] }

/-- Sets what is returned if the function returns nothing. -/
def withOutput (b : CallBuilder) (v : Value) : CallBuilder := { b with output := some v.asResult }

/-- Makes the call.  Everything in the builder is borrowed. -/
def invoke [Callable ε] (b : CallBuilder) : Run (FunctionCode ε) Value := do
  match b.function with
  | none => Run.fail .functionNotSet
  | some f =>
    let result ← Function.invoke f b.args
    match result.isNull, b.output with
    | true, some output =>
      Run.retainValue output
      return output
    | _, _ => return result

end CallBuilder

namespace Function

variable {ε : Type}

/-- Calls a function and converts its result. -/
def callAs [Callable ε] (f : Ref) (result : ValueType) (args : List Value) :
    Run (FunctionCode ε) result.Carrier := do
  let v ← (CallBuilder.ofFunction f |> fun b => args.foldl CallBuilder.addArg b).invoke
  Run.releasing v.object?.toList (Run.decode result v)

/-- The function that a wrapper calls.  It is looked up until it is found and then remembered. -/
def wrapped (wrapper : Wrapper) : Run (FunctionCode ε) Ref := do
  match (← get).wrappers.lookup wrapper with
  | some f => return f
  | none =>
    let f ← Registry.get wrapper.function
    modify fun w => { w with wrappers := (wrapper, f) :: w.wrappers }
    return f

/-- Calls a function to which objects are handed over. -/
def callMoving [Callable ε] (f : Ref) (result : ValueType) (args : List Value) :
    Run (FunctionCode ε) result.Carrier := do
  let args ← args.mapM fun v => if v.object?.isSome then Run.travel v.object? true else pure v
  callAs f result args

/-- Calls a wrapper, to which objects are handed over. -/
def callWrapper [Callable ε] (wrapper : Wrapper) (result : ValueType) (args : List Value) :
    Run (FunctionCode ε) result.Carrier := do
  callMoving (← wrapped wrapper) result args

end Function

end ObjectRuntime
