set_option autoImplicit false

/-!
# JSON values

The values that graphs are written with, and their text with two blanks per level (`Json.pretty`).
-/

namespace ObjectRuntime

/-- A JSON value. -/
inductive Json where
  | natural (n : Nat)
  | text (s : String)
  | array (elems : List Json)
  | object (fields : List (String × Json))
  deriving Repr, Inhabited

namespace Json

/-- A digit of a hexadecimal number. -/
def hexChar (n : Nat) : Char := if n < 10 then Char.ofNat (48 + n) else Char.ofNat (87 + n)

/-- The characters that stand for one in a string. -/
def escape (c : Char) : List Char :=
  if c = '"' then ['\\', '"']
  else if c = '\\' then ['\\', '\\']
  else if c = '\x08' then ['\\', 'b']
  else if c = '\t' then ['\\', 't']
  else if c = '\n' then ['\\', 'n']
  else if c = '\x0c' then ['\\', 'f']
  else if c = '\r' then ['\\', 'r']
  else if c.toNat < 0x20 then
    ['\\', 'u', '0', '0', hexChar (c.toNat / 16), hexChar (c.toNat % 16)]
  else [c]

/-- A string between quotes. -/
def quote (s : String) : String := "\"" ++ String.ofList (s.toList.flatMap escape) ++ "\""

/-- The start of a line. -/
def indent (level : Nat) : String := String.ofList (List.replicate (2 * level) ' ')

/-- Puts lines between brackets. -/
def enclose (level : Nat) (opening closing : String) (lines : List String) : String :=
  if lines.isEmpty then opening ++ closing
  else
    opening ++ "\n"
      ++ String.intercalate ",\n" (lines.map fun line => indent (level + 1) ++ line)
      ++ "\n" ++ indent level ++ closing

mutual

/-- A value whose first line has been indented. -/
def write (level : Nat) : Json → String
  | .natural n => toString n
  | .text s => quote s
  | .array elems => enclose level "[" "]" (writeElements (level + 1) elems)
  | .object fields => enclose level "\x7b" "\x7d" (writeFields (level + 1) fields)

/-- The elements of an array. -/
def writeElements (level : Nat) : List Json → List String
  | [] => []
  | v :: rest => write level v :: writeElements level rest

/-- The fields of an object. -/
def writeFields (level : Nat) : List (String × Json) → List String
  | [] => []
  | (key, v) :: rest => (quote key ++ ": " ++ write level v) :: writeFields level rest

end

/-- The text of a value. -/
def pretty (v : Json) : String := write 0 v

end Json

end ObjectRuntime
