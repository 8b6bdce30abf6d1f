import ObjectRuntime.Function.Builder
set_option autoImplicit false

/-!
# Sample functions

Functions of every kind of signature, for trying out the conversion of arguments and results.  A
sample function carries the name under which it appears in the errors of its arguments.
-/

namespace ObjectRuntime

/-- The sample functions. -/
inductive SampleFunction where
  | zero | unit | add
  | identity (t : ValueType)
  | not | concat | textLength | join | sumFloats | keys
  | optionalInt | optionalText | variant
  | bytes | dataType | device | shape | tensorSize | object
  | apply | parse
  | sum4 | sum5 | sum6 | mixed
  | giveUp | tooLarge
  | predecessor
  | countArgs | echo | argTypes | nothing | failing
  deriving DecidableEq, Repr

namespace SampleFunction

/-- The numbers that can be passed through. -/
def numbers : List ValueType :=
  [.int .i8, .int .i16, .int .i32, .int .i64, .int .u8, .int .u16, .int .u32, .int .u64,
    .int .usize, .int .isize, .f32, .f64]

/-- The functions that have one name each. -/
def plain : List (String × SampleFunction) := [
  ("zero", .zero), ("unit", .unit), ("add", .add), ("not", .not), ("concat", .concat),
  ("strlen", .textLength), ("join", .join), ("sumf", .sumFloats), ("keys", .keys),
  ("opt_i64", .optionalInt), ("opt_str", .optionalText), ("variant", .variant),
  ("bytes", .bytes), ("dtype", .dataType), ("device", .device), ("shape", .shape),
  ("nd", .tensorSize), ("obj", .object), ("apply", .apply), ("parse", .parse),
  ("sum4", .sum4), ("sum5", .sum5), ("sum6", .sum6), ("mix6", .mixed),
  ("panic", .giveUp), ("big", .tooLarge),
  ("count", .countArgs), ("echo", .echo), ("types", .argTypes), ("null", .nothing),
  ("fail", .failing)]

/-- The function with a name. -/
def ofName? (name : String) : Option SampleFunction :=
  match plain.lookup name with
  | some f => some f
  | none => (numbers.find? fun t => "id_" ++ t.name == name).map .identity

variable {κ : Type}

/-- A 64-bit integer as a parameter. -/
abbrev i64 : ValueType := .int .i64

/-- A sum that has to fit. -/
def checkedSum (ns : List Int) : Run κ I64 := do
  match ns with
  | [] => return 0
  | n :: rest =>
    let sum ← Run.ofFallible (rest.foldlM (checkedOp .i64 .add) n)
    return MachineInt.wrap .i64 sum

/-- The content of a boxed floating point number, which has to be there. -/
def derefFloat (w : World κ) (r : Ref) : Except Fault Double :=
  match (r.bind w.payload?).bind Payload.double? with
  | some x => .ok x
  | none => .error (.panic (.nullDereference "Float"))

/-- The words for the truth values. -/
def showBool (b : Bool) : String := if b then "true" else "false"

/-- The first argument. -/
def firstArg (vs : List Value) : Value := (vs.head?.getD .null).asResult

/-- What the function does.  It calls others through `invoke`. -/
def run (invoke : Invoke κ) (name : String) (f : SampleFunction) : List Value → Run κ Value :=
  let typed (params : List ValueType) (result : ValueType)
      (body : Args params → Run κ result.Carrier) : List Value → Run κ Value :=
    Run.callTyped name ⟨params, result, false⟩ body
  let fallible (params : List ValueType) (result : ValueType)
      (body : Args params → Run κ result.Carrier) : List Value → Run κ Value :=
    Run.callTyped name ⟨params, result, true⟩ body
  match f with
  | .zero => typed [] (.int .i32) fun _ => pure (10 : MachineInt .i32)
  | .unit => typed [] .unit fun _ => pure ()
  | .add => typed [i64, i64] i64 fun (a, b, _) => pure (MachineInt.add a b)
  | .identity t => typed [t] t fun (x, _) => pure x
  | .not => typed [.bool] .bool fun (b, _) => pure (!b)
  | .concat => typed [.text, i64, .bool] .text fun (s, n, b, _) =>
    pure (s ++ toString (n : I64) ++ showBool b)
  | .textLength => typed [.ref .string] i64 fun (r, _) => do
    let s ← Run.ofFallible (Blob.derefText (← get) r)
    return MachineInt.wrap .i64 s.utf8ByteSize
  | .join => typed [.ref (.array .string)] .text fun (r, _) => do
    let w ← get
    let elems ← Run.ofFallible (Arr.iterate w .string r)
    return String.intercalate "," (← Run.ofFallible (elems.mapM (Blob.derefText w)))
  | .sumFloats => typed [.ref (.array .boxFloat)] .f64 fun (r, _) => do
    let w ← get
    let elems ← Run.ofFallible (Arr.iterate w .boxFloat r)
    let xs ← Run.ofFallible (elems.mapM (derefFloat w))
    return xs.foldl Double.add (Double.ofInt 0).neg
  | .keys => typed [.ref (.map .string .boxInt)] (.ref (.array .string)) fun (r, _) => do
    let entries ← Run.ofFallible (Dict.iterate (← get) .string .boxInt r)
    let keys := entries.map (·.1)
    keys.forM Run.retainRef
    Arr.ofList keys
  | .optionalInt => typed [.option i64] (.option i64) fun (x, _) => pure x
  | .optionalText => typed [.option (.ref .string)] (.option (.ref .string)) fun (x, _) => do
    if let some r := x then Run.retainRef r
    return x
  | .variant => typed [.variant i64 (.ref .string)] (.variant i64 (.ref .string)) fun (x, _) => do
    if let .inr r := x then Run.retainRef r
    return x
  | .bytes => typed [.bytes] .bytes fun (b, _) => pure b
  | .dataType => typed [.dataType] .dataType fun (d, _) => pure d
  | .device => typed [.device] .device fun (d, _) => pure d
  | .shape => typed [.ref .shapeTuple, i64] i64 fun (r, n, _) => do
    let dims ← Run.ofFallible (Builtin.extents (← get) r)
    checkedSum [dims.length, n.val]
  | .tensorSize => typed [.ref .tensor] i64 fun (r, _) => do
    let (_, t) ← Tensor.deref r
    return MachineInt.wrap .i64 (← Run.ofFallible t.size)
  | .object => typed [.ref .object] (.ref .object) fun (r, _) => do
    Run.retainRef r
    return r
  | .apply => fallible [.ref .function, .ref .object] .any fun (f, r, _) => do
    invoke f [← Run.travel r true]
  | .parse => fallible [.ref .string] i64 fun (r, _) => do
    let s ← Run.ofFallible (Blob.derefText (← get) r)
    match IntKind.i64.parse s with
    | .ok n => return n
    | .error cause => Run.failRaw cause.message
  | .sum4 => typed [i64, i64, i64, i64] i64 fun (a, b, c, d, _) =>
    checkedSum [a.val, b.val, c.val, d.val]
  | .sum5 => typed [i64, i64, i64, i64, i64] i64 fun (a, b, c, d, e, _) =>
    checkedSum [a.val, b.val, c.val, d.val, e.val]
  | .sum6 => typed [i64, i64, i64, i64, i64, i64] i64 fun (a, b, c, d, e, f, _) =>
    checkedSum [a.val, b.val, c.val, d.val, e.val, f.val]
  | .mixed =>
    typed [.int .i8, .f32, .bool, .text, .option (.ref .string), .ref (.array .boxInt)] .text
      fun (a, x, b, s, o, r, _) => do
        let w ← get
        let other ← match o with
          | some o => Run.ofFallible (Blob.derefText w o)
          | none => pure "none"
        let size := (Double.ofInt (w.elements r).length).toSingle
        let sum := (size.toDouble.add x.toDouble).toSingle.toDouble
        let greater := (Double.ofInt 2).lt sum
        let n := toString (a : MachineInt .i8)
        return String.intercalate "|" [n, showBool b, s, other, showBool greater]
  | .giveUp => typed [] i64 fun _ => Run.panic (.raised "boom")
  | .tooLarge => typed [] (.int .u64) fun _ => pure (MachineInt.wrap .u64 (-1))
  | .predecessor => typed [i64] i64 fun (a, _) => do
    return MachineInt.wrap .i64 (← Run.ofFallible (checkedOp .i64 .sub a.val 1))
  | .countArgs => fun vs => pure (.int (MachineInt.wrap .i64 vs.length))
  | .echo => fun vs => do
    Run.retainValue (firstArg vs)
    return firstArg vs
  | .argTypes => fun vs => do
    let w ← get
    let shown := vs.map fun v => toString v.typeCode ++ ":" ++ w.valueTypeName v
    return .text (String.intercalate "," shown)
  | .nothing => fun _ => pure .null
  | .failing => fun _ => Run.failRaw "fail"

end SampleFunction

end ObjectRuntime
