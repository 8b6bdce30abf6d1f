import ObjectRuntime.Function.Builder
set_option autoImplicit false

/-!
# Functions as closures

A function can be called as a closure of static types.  Its arguments are members of the parameter
types, which go over into the call from left to right; what it returns is converted to a member of
the result type.
-/

namespace ObjectRuntime

/-- The value as an argument that is handed over: an ordinary object is moved. -/
def Value.asArgument : Value → Value
  | .object .object id => .object .moved id
  | v => v

/-- Members of types as arguments that are handed over.  If one of them cannot be converted, all
references in the others are given up. -/
def Run.encodeArgs {κ : Type} : (ts : List ValueType) → Args ts → Run κ (List Value)
  | [], _ => pure []
  | t :: ts, (x, xs) => do
    let v ← releasingOnFault (Args.references ts xs) (encode t x)
    let vs ← releasingOnFault v.object?.toList (encodeArgs ts xs)
    return v.asArgument :: vs

/-- Calls a function as a closure.  The function is borrowed, and the arguments are given up when it
has returned. -/
def Function.callClosure {ε : Type} [Callable ε] (f : Ref) (params : List ValueType)
    (result : ValueType) (args : Args params) : Run (FunctionCode ε) result.Carrier := do
  let vs ← Run.encodeArgs params args
  Run.releasing (vs.filterMap Value.object?) (callAs f result vs)

end ObjectRuntime
