import ObjectRuntime.Reflection.Attributes
import ObjectRuntime.Reflection.Graph
import ObjectRuntime.Tensor.Blob
import ObjectRuntime.Text.Base64
import ObjectRuntime.Text.CharClass
set_option autoImplicit false

/-!
# Loading object graphs

Starting from the root, every node that is referred to is made into an object once.  A node that is
referred to while it is being made is an error, so loading ends on every graph, and what it makes
is free of cycles.

Attributes are texts.  The text of an attribute whose type admits nothing is the number of a node;
any other text is offered to the type as it stands, as an integer, as a floating point number and
as a device, in this order.
-/

namespace ObjectRuntime

namespace Loading

variable {κ : Type}

/-- Fails because a graph is not well formed. -/
def malformed {α : Type} (defect : GraphDefect) : Build κ α := Build.fail (.graphFormat defect)

/-! ## Attributes -/

/-- The values for which the text of an attribute may stand. -/
def candidates (text : String) : List Value :=
  [.text text]
    ++ (IntKind.i64.parse text).toOption.toList.map .int
    ++ (Double.ofText? text).toList.map .float
    ++ (Device.parse text).toOption.toList.map fun d => .device d.toRaw

/-- The first value that the type accepts; if there is none, the last refusal. -/
def firstAccepted (t : ValueType) : List Value → Build κ Value
  | [] => pure .null
  | [v] => Build.fieldOf t v
  | v :: rest => do
    match ← Build.ofRun (Run.attempt (Run.decode t v)) with
    | .ok x =>
      Build.hold (t.references x)
      return t.fieldValue x
    | .error _ => firstAccepted t rest

/-- The value of a field that is given as a text. -/
def fieldOf (resolve : Nat → Build κ Ref) (t : ValueType) (text : String) : Build κ Value := do
  if t.acceptsNull then
    match IntKind.usize.parse text with
    | .error _ => malformed (.badIndex text)
    | .ok n =>
      let r ← resolve n.val.toNat
      Build.fieldOf t (← Build.ofRun (Run.travel r false))
  else firstAccepted t (candidates text)

/-! ## Nodes -/

/-- Cuts off blanks at both ends. -/
def trim (cs : List Char) : List Char :=
  ((cs.dropWhile CharClass.isBlank).reverse.dropWhile CharClass.isBlank).reverse

/-- The parts between commas. -/
def splitCommas : List Char → List (List Char)
  | [] => [[]]
  | c :: rest =>
    match splitCommas rest with
    | [] => [[c]]
    | part :: parts => if c = ',' then [] :: part :: parts else (c :: part) :: parts

/-- The numbers between brackets; empty parts are left out. -/
def parseShape? (text : String) : Option (List Int) :=
  match trim text.toList with
  | '[' :: rest =>
    if rest.getLast? = some ']' then
      let parts := ((splitCommas rest.dropLast).map trim).filter (· ≠ [])
      parts.mapM fun part =>
        (IntKind.i64.parse (String.ofList part)).toOption.map fun n => n.val
    else none
  | _ => none

/-- A part of a node that its type needs. -/
def required (index : Nat) (field : String) (part : Option String) : Build κ String :=
  match part with
  | some s => pure s
  | none => malformed (.missingText index field)

/-- A new string. -/
def string (s : String) : Build κ Ref := Build.make .string (.text s)

/-- Elements two by two; a last one without a partner is left out. -/
def pairs {α : Type} : List α → List (α × α)
  | a :: b :: rest => (a, b) :: pairs rest
  | _ => []

/-- An entry of a new map.  Its key is asked how it is compared. -/
def entry (key value : Build κ Ref) : Build κ (Ref × Ref) := do
  let k ← key
  let v ← value
  Build.ofRun (Run.askKey k)
  return (k, v)

/-- A new map.  Of entries with the same key the first key and the last value stay. -/
def map (entries : List (Ref × Ref)) : Build κ Ref := do
  let w ← Build.world
  Build.make .map (.map (entries.foldl (fun es (k, v) => insertEntry w.sameKey k v es) []))

/-- The object that a node describes. -/
def object (resolve : Nat → Build κ Ref) (index : Nat) (n : GraphNode) : Build κ Ref := do
  if n.typeKey = ObjectClass.string.key then
    string (← required index "repr_str" n.text)
  else if n.typeKey = ObjectClass.shapeTuple.key then
    let text ← required index "repr_str" n.text
    match parseShape? text with
    | some dims => Build.make .shapeTuple (.shape dims)
    | none => malformed (.badShape text)
  else if n.typeKey = ObjectClass.array.key then
    Build.make .array (.array (← n.data.mapM resolve))
  else if n.typeKey = ObjectClass.map.key then
    if !n.keys.isEmpty then
      if n.keys.length ≠ n.data.length then
        malformed (.keyCount index n.keys.length n.data.length)
      else
        map (← (n.keys.zip n.data).mapM fun (k, v) => entry (string k) (resolve v))
    else if n.data.length % 2 ≠ 0 then malformed (.oddEntries index)
    else map (← (pairs n.data).mapM fun (k, v) => entry (resolve k) (resolve v))
  else if n.typeKey = ObjectClass.tensor.key then
    let text ← required index "repr_b64" n.base64
    match Base64.decode? text with
    | some blob => Build.holding (some <$> Blob.loadTensor blob)
    | none => Build.fail (.base64Text (Base64.defect text))
  else Build.object n.typeKey (fieldOf resolve) n.attrs

/-- The object of a node, made when it is first referred to.  `free` is the number of nodes that
are not being made. -/
def resolve (nodes : List GraphNode) (free index : Nat) : Build κ Ref := do
  if index = 0 then return none
  match (← get).finished.lookup index with
  | some r => return r
  | none =>
    match nodes[index]? with
    | none => malformed (.indexOutOfRange index)
    | some n =>
      if (← get).path.contains index then malformed (.cycle index)
      else
        match free with
        | 0 => malformed (.cycle index)
        | free + 1 =>
          modify fun s => { s with path := index :: s.path }
          let r ← object (resolve nodes free) index n
          modify fun s =>
            { s with path := s.path.erase index, finished := (index, r) :: s.finished }
          return r
termination_by free

end Loading

/-- The object that a graph describes. -/
def loadGraph {κ : Type} (g : Graph) : Run κ Ref :=
  if g.root ≥ max g.nodes.length 1 then
    Run.fail (.graphFormat (.rootOutOfRange g.root))
  else Build.run (Loading.resolve g.nodes g.nodes.length g.root)

/-- Reads the text of a graph and makes the object that it describes. -/
def loadText {κ : Type} (text : String) : Run κ Ref :=
  match Graph.parse text with
  | .ok g => loadGraph g
  | .error defect => Run.fail (.graphText defect)

end ObjectRuntime
