import ObjectRuntime.Session.Expr
import ObjectRuntime.Session.Report
set_option autoImplicit false

/-!
# Steps on values

Showing values, converting them to types and back, and passing them through cells.
-/

namespace ObjectRuntime

/-- The register that takes the value of a step, if any, and whether the value is left unshown. -/
structure Target where
  register : Option String
  quiet : Bool
  deriving DecidableEq, Repr

/-- Where a function comes from. -/
inductive FunctionExpr where
  | global (name : String)
  | value (e : Expr)

namespace Session

variable {α : Type}

/-! ## Access -/

/-- Reads an answer that depends on the world but does not change it. -/
def query (f : World SessionCode → Except Error α) : Act α := ofRun (Run.query f)

/-- An answer that may be a fault. -/
def ofFallible (x : Except Fault α) : Act α := ofRun (Run.ofFallible x)

/-- The view of a value. -/
def view (v : Value) : Act Report := do return .value ((← currentWorld).viewValue v)

/-- The view of a value, unless it is left unshown. -/
def viewFor (t : Target) (v : Value) : Act Report :=
  if t.quiet then pure (.text "quiet") else view v

/-- Shows a value and puts it into its register, or gives it up. -/
def give (t : Target) (v : Value) : Act Report := do
  let shown ← viewFor t v
  keep t.register v
  return shown

/-- Shows a reference as an object. -/
def giveRef (t : Target) (r : Ref) : Act Report := give t (.ofRef .object r)

/-- Shows a reference as the value that carries it. -/
def giveCarried (t : Target) (r : Ref) : Act Report := do give t (← ofRun (Run.encodeRef r false))

/-- Evaluates an expression to an object, which has to be of a class. -/
def evalInstance (t : RefType) (e : Expr) : Act Ref := do
  let r ← evalRef .object e
  releasingOnFault r.toList (checked (.named t.name t.cls) r)

/-- Uses an object of a class and gives it up. -/
def withInstance (t : RefType) (e : Expr) (body : Ref → Act α) : Act α := do
  let r ← evalInstance t e
  releasing r.toList (body r)

/-- A function as a reference of the caller's own. -/
def evalFunction : FunctionExpr → Act Ref
  | .global name => do
    let f ← ofRun (Registry.get name)
    ofRun (Run.retainRef f)
    return f
  | .value e => evalRef .function e

/-- Uses a function and gives it up. -/
def withFunction (f : FunctionExpr) (body : Ref → Act α) : Act α := do
  let r ← evalFunction f
  releasing r.toList (body r)

/-! ## Conversion -/

/-- Shows a member of a type once it has become a value. -/
def viewEncoded (t : ValueType) (x : t.Carrier) : Act Report := do
  let v ← ofRun (Run.encode t x)
  releasing v.object?.toList (view v)

/-- The same member made into a value in several ways. -/
def viewCopies (count : Nat) (t : ValueType) (x : t.Carrier) : Act Report := do
  return .list (List.replicate count (← viewEncoded t x))

/-- Which alternatives of variants a member has taken. -/
def alternative : (t : ValueType) → t.Carrier → Option String
  | .variant _ _, .inl _ => some "first"
  | .variant _ b, .inr x => some ("second" ++ ((alternative b x).map ("." ++ ·)).getD "")
  | _, _ => none

/-- A member of a type as a value: references stay objects. -/
def ofMember : (t : ValueType) → t.Carrier → Act Value
  | .ref _, r => pure (.ofRef .object r)
  | t, x => ofRun (Run.encode t x)

/-- Converts a value to a type and back. -/
def convert (dest : Target) (t : ValueType) (asResult : Bool) (e : Expr) : Act Report :=
  withValue e fun v => do
    let x ← ofRun (Run.decode t (if asResult then v.asResult else v))
    let out ← ofMember t x
    let same := match v.object?, out.object? with
      | some a, some b => Report.flag (a == b)
      | _, _ => .nothing
    let shown ← give dest out
    return .record [("tag", .ofOption .text (alternative t x)), ("same", same), ("v", shown)]

/-! ## Cells -/

/-- The code of a value, the name of its type, whether it is nothing, and whether it carries an
object. -/
def cellFacts (v : Value) : Act (List Report) := do
  return [.number v.typeCode, .text ((← currentWorld).valueTypeName v), .flag v.isNull,
    .flag v.object?.isSome]

/-- All that can be asked of a value as an argument and as a result. -/
def describeValue (v : Value) : Act Report := do
  let facts := ["code", "name", "null", "object"].zip (← cellFacts v)
  return .record (facts ++ [("ret", .list (← cellFacts v.asResult)), ("back", ← view v.asResult)])

/-- Reads a cell that owns nothing. -/
def readCell (c : Cell) : Act Value :=
  ofRun (Run.withCells (Arguments.ofCells [c]) (Incoming.readCell c))

/-- Reads cells and shows each value before the next one is read. -/
def viewCells : List Cell → Incoming SessionCode (List Report)
  | [] => pure []
  | c :: rest => do
    let v ← Incoming.readCell c
    let shown := Report.value ((← Incoming.ofRun get).viewValue v)
    Incoming.ofRun (Run.releaseAll v.object?.toList)
    return shown :: (← viewCells rest)

/-- Puts values into cells and reads them back. -/
def throughCells (es : List Expr) : Act Report := do
  let vs ← evalAll es
  ofRun (Run.withArguments vs do
    let cells := (← get).cells
    let decoded ← viewCells cells
    return .record [("empty", .flag cells.isEmpty), ("codes", .numbers (cells.map (·.code))),
      ("decoded", .list decoded)])

end Session

end ObjectRuntime
