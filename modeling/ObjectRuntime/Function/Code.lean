import ObjectRuntime.Function.Builtin
set_option autoImplicit false

/-!
# Functions as objects

The code of a function is built in or belongs to a program that uses the runtime.  Such a program
says in an instance of `Callable` what its code does; it is handed `invoke`, so that functions may
call functions.  Calls are nested no deeper than `maxDepth`.
-/

namespace ObjectRuntime

/-- The code of a function, where `ε` is the code of the program. -/
inductive FunctionCode (ε : Type) where
  | builtin (b : Builtin)
  | program (e : ε)
  deriving DecidableEq, Repr

/-- A way of calling functions. -/
abbrev Invoke (κ : Type) := Ref → List Value → Run κ Value

/-- What the code of a program does when it is called.  It borrows its arguments and owns its
result. -/
class Callable (ε : Type) where
  call : Invoke (FunctionCode ε) → ε → List Value → Run (FunctionCode ε) Value

namespace Function

variable {ε : Type}

/-- The depth to which calls may be nested. -/
def maxDepth : Nat := 1000

/-- Calls a function within a depth. -/
def invokeWithin [Callable ε] : Nat → Invoke (FunctionCode ε)
  | _, none, _ => Run.fail (.nullHandle "Function")
  | 0, some _, _ => Run.panic .stackExhausted
  | depth + 1, some id, args => do
    match (← get).payload? id with
    | some (.function (.builtin b) _) => b.run args
    | some (.function (.program e) _) => Callable.call (invokeWithin depth) e args
    | _ => Run.fail (.nullHandle "Function")

/-- Calls a function, to which a reference is held meanwhile. -/
def invoke [Callable ε] (f : Ref) (args : List Value) : Run (FunctionCode ε) Value := do
  Run.retainRef f
  Run.releasing f.toList (invokeWithin maxDepth f args)

/-- A new function. -/
def make {κ : Type} (code : κ) (finalizer : Option Hook) : Run κ ObjId :=
  Run.create .function (.function code finalizer)

end Function

end ObjectRuntime
