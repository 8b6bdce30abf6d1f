import ObjectRuntime.NameTable
import ObjectRuntime.Text.Json
import ObjectRuntime.Text.Json.Reading
set_option autoImplicit false

/-!
# Graphs of nodes

The saved form of an object graph: a list of nodes, numbered from zero, that refer to each other by
number.  Node 0 stands for nothing.  `Graph.toText` writes a graph as JSON and `Graph.parse` reads
one, or tells where and why a text is refused.
-/

namespace ObjectRuntime

/-- A node.  What it is made of depends on its type: a text, the nodes it holds, keys of the nodes
it holds, or attributes. -/
structure GraphNode where
  typeKey : String
  attrs : List (String × String)
  keys : List String
  data : List Nat
  text : Option String
  base64 : Option String
  deriving DecidableEq, Repr, Inhabited

/-- The nodes of a graph and the number of its root. -/
structure Graph where
  root : Nat
  nodes : List GraphNode
  tensors : List String
  attrs : List (String × String)
  deriving DecidableEq, Repr, Inhabited

namespace Graph

/-- The version that is written into graphs. -/
def version : String := "0.19.dev0"

/-! ## Reading -/

/-- Reads the number of a node. -/
def readIndex : Json.Step Nat := Json.readNatural "usize"

/-- Reads texts by name. -/
def readTexts : Json.Step (List (String × String)) := fun cs =>
  (Json.readEntries cs).map fun (es, rest) => (NameTable.sorted (NameTable.ofList es), rest)

/-- The fields of a node. -/
def nodeMembers : List (Json.Member GraphNode) :=
  [.of "type_key" true Json.readText fun n s => { n with typeKey := s },
    .of "attrs" false readTexts fun n es => { n with attrs := es },
    .of "keys" false (Json.readList Json.readText) fun n ks => { n with keys := ks },
    .of "data" false (Json.readList readIndex) fun n is => { n with data := is },
    .of "repr_str" false Json.readOptionalText fun n s => { n with text := s },
    .of "repr_b64" false Json.readOptionalText fun n s => { n with base64 := s }]

/-- Reads a node. -/
def readNode : Json.Step GraphNode := Json.readRecord "struct JsonNode" nodeMembers default

/-- The fields of a graph. -/
def members : List (Json.Member Graph) :=
  [.of "root" true readIndex fun g i => { g with root := i },
    .of "nodes" true (Json.readList readNode) fun g ns => { g with nodes := ns },
    .of "b64ndarrays" false (Json.readList Json.readText) fun g ts => { g with tensors := ts },
    .of "attrs" false readTexts fun g es => { g with attrs := es }]

/-- Reads a graph. -/
def read : Json.Step Graph := Json.readRecord "struct JsonGraph" members default

/-- Reads the text of a graph. -/
def parse (text : String) : Except Json.Defect Graph := Json.readAll read text

/-! ## Writing -/

/-- A field of a structure. -/
def field (name : String) (j : Json) : List (String × Json) := [(name, j)]

/-- A field of a structure that is left out under a condition. -/
def fieldUnless (skip : Bool) (name : String) (j : Json) : List (String × Json) :=
  if skip then [] else field name j

/-- A text of a structure that is left out if there is none. -/
def optionalField (name : String) : Option String → List (String × Json)
  | some s => field name (.text s)
  | none => []

/-- Texts by name. -/
def writeTexts (entries : List (String × String)) : Json :=
  .object (entries.map fun (key, s) => (key, .text s))

/-- A node, of which only what is there is written. -/
def writeNode (n : GraphNode) : Json :=
  .object (field "type_key" (.text n.typeKey)
    ++ fieldUnless n.attrs.isEmpty "attrs" (writeTexts n.attrs)
    ++ fieldUnless n.keys.isEmpty "keys" (.array (n.keys.map .text))
    ++ fieldUnless n.data.isEmpty "data" (.array (n.data.map .natural))
    ++ optionalField "repr_str" n.text
    ++ optionalField "repr_b64" n.base64)

/-- A graph. -/
def toJson (g : Graph) : Json :=
  .object (field "root" (.natural g.root)
    ++ field "nodes" (.array (g.nodes.map writeNode))
    ++ field "b64ndarrays" (.array (g.tensors.map .text))
    ++ field "attrs" (writeTexts g.attrs))

/-- The text of a graph. -/
def toText (g : Graph) : String := g.toJson.pretty

end Graph

end ObjectRuntime
