import ObjectRuntime.Number.Decimal
import ObjectRuntime.Text.Quoted
import ObjectRuntime.Text.Utf8
set_option autoImplicit false

/-!
# Refused JSON texts

Why a text is refused, and where.  A reader that stops tells how many bytes it leaves behind the
place it stops at, and `Stop.toDefect` turns that number into a line and a column of the text.
-/

namespace ObjectRuntime.Json

/-- What stands in a text where something else is wanted. -/
inductive Found where
  | null
  | bool (b : Bool)
  | integer (n : Int)
  | decimal (x : Double)
  | text (s : String)
  | list
  | object
  deriving DecidableEq, Repr

/-- The wording of what was found. -/
def Found.message : Found → String
  | .null => "null"
  | .bool b => s!"boolean `{b}`"
  | .integer n => s!"integer `{n}`"
  | .decimal x => "floating point `" ++ x.toPointedText ++ "`"
  | .text s => "string " ++ Quoted.quote s
  | .list => "sequence"
  | .object => "map"

/-- Why a text is refused. -/
inductive Cause where
  | endOfList
  | endOfObject
  | endOfString
  | endOfValue
  | expectedColon
  | expectedListEnd
  | expectedObjectEnd
  | expectedWord
  | expectedValue
  | invalidEscape
  | invalidNumber
  | numberTooLarge
  | controlCharacter
  | keyNotText
  | surrogateAlone
  | surrogateCut
  | trailingComma
  | trailingCharacters
  | wrongType (found : Found) (wanted : String)
  | wrongValue (found : Found) (wanted : String)
  | wrongLength (length : Nat) (wanted : String)
  | fieldMissing (name : String)
  | fieldRepeated (name : String)
  deriving DecidableEq, Repr

/-- The wording of the cause. -/
def Cause.message : Cause → String
  | .endOfList => "EOF while parsing a list"
  | .endOfObject => "EOF while parsing an object"
  | .endOfString => "EOF while parsing a string"
  | .endOfValue => "EOF while parsing a value"
  | .expectedColon => "expected `:`"
  | .expectedListEnd => "expected `,` or `]`"
  | .expectedObjectEnd => "expected `,` or `\x7d`"
  | .expectedWord => "expected ident"
  | .expectedValue => "expected value"
  | .invalidEscape => "invalid escape"
  | .invalidNumber => "invalid number"
  | .numberTooLarge => "number out of range"
  | .controlCharacter => "control character (\\u0000-\\u001F) found while parsing a string"
  | .keyNotText => "key must be a string"
  | .surrogateAlone => "lone leading surrogate in hex escape"
  | .surrogateCut => "unexpected end of hex escape"
  | .trailingComma => "trailing comma"
  | .trailingCharacters => "trailing characters"
  | .wrongType found wanted => "invalid type: " ++ found.message ++ ", expected " ++ wanted
  | .wrongValue found wanted => "invalid value: " ++ found.message ++ ", expected " ++ wanted
  | .wrongLength length wanted => s!"invalid length {length}, expected {wanted}"
  | .fieldMissing name => s!"missing field `{name}`"
  | .fieldRepeated name => s!"duplicate field `{name}`"

/-- Why a text is refused, and the number of bytes behind the place where that shows. -/
structure Stop where
  cause : Cause
  left : Nat
  deriving DecidableEq, Repr

/-- The number of bytes of some characters. -/
def byteCount (cs : List Char) : Nat := cs.foldr (fun c n => c.utf8Size + n) 0

/-- Stops in front of what is left. -/
def Stop.before (cause : Cause) (cs : List Char) : Stop := ⟨cause, byteCount cs⟩

/-- Stops behind the next byte of what is left, if there is one. -/
def Stop.after (cause : Cause) (cs : List Char) : Stop := ⟨cause, byteCount cs - 1⟩

/-- Why a text is refused, with the line and the number of bytes in front of the place in its
line. -/
structure Defect where
  cause : Cause
  line : Nat
  column : Nat
  deriving DecidableEq, Repr

/-- The wording of the defect. -/
def Defect.message (d : Defect) : String :=
  let cause := d.cause.message
  let line := d.line
  let column := d.column
  s!"{cause} at line {line} column {column}"

/-- The byte that ends a line. -/
def lineEnd : UInt8 := 10

/-- The line and the column of the place where a reader of a text stops. -/
def Stop.toDefect (text : String) (stop : Stop) : Defect :=
  let bytes := Utf8.encode text
  let passed := bytes.take (bytes.length - stop.left)
  ⟨stop.cause, passed.count lineEnd + 1, (passed.reverse.takeWhile (· ≠ lineEnd)).length⟩

end ObjectRuntime.Json
