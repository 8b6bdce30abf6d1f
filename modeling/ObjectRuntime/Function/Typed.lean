import ObjectRuntime.Conversion
set_option autoImplicit false

/-!
# Typed functions

A typed function is called with values, which are converted to the types of its parameters from
left to right.  Their number must match exactly.  The first argument that cannot be converted is
reported by its position, and the body runs only if all of them can be.
-/

namespace ObjectRuntime

/-- The types of the parameters and of the result.  A fallible function may also fail by itself. -/
structure Signature where
  params : List ValueType
  result : ValueType
  fallible : Bool
  deriving DecidableEq, Repr

namespace Signature

/-- The parameters with their positions, counted from `start`. -/
def showParams (start : Nat) : List ValueType → List String
  | [] => []
  | t :: rest => (toString start ++ ": " ++ t.name) :: showParams (start + 1) rest

/-- The signature as it appears in messages. -/
def text (s : Signature) : String :=
  let result := if s.fallible then "Result<" ++ s.result.name ++ ", Error>" else s.result.name
  "(" ++ String.intercalate ", " (showParams 0 s.params) ++ ") -> " ++ result

end Signature

/-- Members of a list of types, one for each. -/
abbrev Args : List ValueType → Type
  | [] => Unit
  | t :: rest => t.Carrier × Args rest

/-- The objects to which arguments refer. -/
def Args.references : (ts : List ValueType) → Args ts → List ObjId
  | [], _ => []
  | t :: rest, (x, xs) => t.references x ++ Args.references rest xs

/-- The name of a function that has none. -/
def anonymousName : String := "<anonymous>"

namespace Run

variable {κ : Type}

/-- Names the argument in the error of its conversion. -/
def blameArg {α : Type} (name signature : String) (index : Nat) (body : Run κ α) : Run κ α := do
  match ← attempt body with
  | .ok a => return a
  | .error cause => fail (.argConversion name signature index cause)

/-- Converts arguments from left to right. -/
def decodeArgs (name signature : String) (index : Nat) :
    (ts : List ValueType) → List Value → Run κ (Args ts)
  | [], _ => pure ()
  | t :: ts, vs => do
    let x ← blameArg name signature index (decode t (vs.head?.getD .null))
    let xs ← releasingOnFault (t.references x) (decodeArgs name signature (index + 1) ts vs.tail)
    return (x, xs)

/-- Calls a typed function.  The body borrows its arguments and owns its result. -/
def callTyped (name : String) (s : Signature) (body : Args s.params → Run κ s.result.Carrier)
    (vs : List Value) : Run κ Value := do
  if vs.length ≠ s.params.length then
    fail (.argCount name s.text s.params.length vs.length)
  else
    let args ← decodeArgs name s.text 0 s.params vs
    let result ← releasing (Args.references s.params args) (body args)
    encode s.result result

/-- Fails with the given text. -/
def failRaw {α : Type} (text : String) : Run κ α := fail (.raw text)

end Run

end ObjectRuntime
