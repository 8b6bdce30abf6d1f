import ObjectRuntime.Object.ValueType
set_option autoImplicit false

/-!
# Names of types

A type is written by its name, or by the name of a type constructor with its arguments between angle
brackets.  `ValueType.parse?` reads such a text; which references have names is for the caller to
say.
-/

namespace ObjectRuntime.ValueType

/-- The machine integers by name. -/
def integers : List (String × IntKind) :=
  [("i8", .i8), ("i16", .i16), ("i32", .i32), ("i64", .i64), ("isize", .isize), ("u8", .u8),
    ("u16", .u16), ("u32", .u32), ("u64", .u64), ("usize", .usize)]

/-- The other types of plain values by name. -/
def plains : List (String × ValueType) :=
  [("f32", .f32), ("f64", .f64), ("bool", .bool), ("str", .text), ("bytes", .bytes),
    ("DataType", .dataType), ("DLDataType", .dataType), ("Device", .device),
    ("DLDevice", .rawDevice), ("handle", .handle), ("ptr", .handle), ("tensor", .tensorHandle),
    ("unit", .unit), ("any", .any)]

/-- The type with a name. -/
def named? (refs : List (String × RefType)) (name : String) : Option ValueType :=
  match plains.lookup name, integers.lookup name with
  | some t, _ => some t
  | none, some k => some (.int k)
  | none, none => (refs.lookup name).map .ref

/-- A constructor applied to types. -/
def applied? (name : String) (args : List ValueType) : Option ValueType :=
  match name, args with
  | "Array", [.ref elem] => some (.ref (.array elem))
  | "Map", [.ref key, .ref value] => some (.ref (.map key value))
  | "Option", [t] => some (.option t)
  | "Variant", [a, b] => some (.variant a b)
  | _, _ => none

/-- The character stands between names. -/
def isMark (c : Char) : Bool := c == '<' || c == ',' || c == '>'

/-- Reads types up to the closing bracket behind them, each nested no deeper than the fuel. -/
def readTypes (refs : List (String × RefType)) :
    Nat → List Char → Option (List ValueType × List Char)
  | 0, _ => none
  | fuel + 1, cs => do
    let (name, rest) := cs.span fun c => !isMark c
    let name := String.ofList name
    let (t, rest) ← match rest with
      | '<' :: rest => do
        let (args, rest) ← readTypes refs fuel rest
        pure (← applied? name args, rest)
      | rest => pure (← named? refs name, rest)
    match rest with
    | ',' :: rest => do
      let (ts, rest) ← readTypes refs fuel rest
      return (t :: ts, rest)
    | '>' :: rest => return ([t], rest)
    | _ => none

/-- Reads types that stand between commas; blanks have no meaning. -/
def parseList? (refs : List (String × RefType)) (s : String) : Option (List ValueType) :=
  let cs := s.toList.filter (· ≠ ' ') ++ ['>']
  match readTypes refs cs.length cs with
  | some (ts, []) => some ts
  | _ => none

/-- Reads one type. -/
def parse? (refs : List (String × RefType)) (s : String) : Option ValueType :=
  match parseList? refs s with
  | some [t] => some t
  | _ => none

end ObjectRuntime.ValueType
