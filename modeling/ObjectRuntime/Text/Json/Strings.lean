import ObjectRuntime.Text.Json.Numeral
set_option autoImplicit false

/-!
# Strings in JSON texts

`chars` reads a string behind its opening quote, and `skipString` passes over one without a look at
what its characters are.  Only a string that is read has to write surrogates in pairs.
-/

namespace ObjectRuntime.Json

/-- The number written in four hexadecimal digits. -/
def unit? (a b c d : Char) : Option Nat := do
  return (((← hexDigit? a) * 16 + (← hexDigit? b)) * 16 + (← hexDigit? c)) * 16 + (← hexDigit? d)

/-- What is wrong behind the letter of a unit: there are not four bytes, or they are no digits. -/
def unitStop (cs : List Char) : Stop :=
  if byteCount cs < 4 then ⟨.endOfString, 0⟩ else ⟨.invalidEscape, byteCount cs - 4⟩

/-- The character for which a letter behind a backslash stands. -/
def unescape? : Char → Option Char
  | '"' => some '"' | '\\' => some '\\' | '/' => some '/'
  | 'b' => some '\x08' | 'f' => some '\x0c' | 'n' => some '\n' | 'r' => some '\r'
  | 't' => some '\t'
  | _ => none

/-- The first unit of a surrogate pair. -/
def isHigh (n : Nat) : Bool := 0xd800 ≤ n && n < 0xdc00

/-- The second unit of a surrogate pair. -/
def isLow (n : Nat) : Bool := 0xdc00 ≤ n && n < 0xe000

/-- The character of a surrogate pair. -/
def ofPair (high low : Nat) : Char :=
  Char.ofNat (0x10000 + (high - 0xd800) * 0x400 + (low - 0xdc00))

/-- Puts a character in front of those that have been read. -/
def withChar (c : Char) (read : Except Stop (List Char × List Char)) :
    Except Stop (List Char × List Char) :=
  read.map fun (cs, rest) => (c :: cs, rest)

/-- Reads the characters of a string up to its closing quote.  The number, if there is one, is the
first unit of a surrogate pair whose second unit has to follow. -/
def chars : Option Nat → Step (List Char)
  | _, [] => .error ⟨.endOfString, 0⟩
  | _, ['\\'] => .error ⟨.endOfString, 0⟩
  | high?, '\\' :: 'u' :: a :: b :: c :: d :: rest =>
    match unit? a b c d, high? with
    | none, _ => .error (unitStop (a :: b :: c :: d :: rest))
    | some n, none =>
      if isHigh n then chars (some n) rest
      else if isLow n then .error (Stop.before .surrogateAlone rest)
      else withChar (Char.ofNat n) (chars none rest)
    | some n, some high =>
      if isLow n then withChar (ofPair high n) (chars none rest)
      else .error (Stop.before .surrogateAlone rest)
  | _, '\\' :: 'u' :: rest => .error (unitStop rest)
  | some _, '\\' :: rest => .error (Stop.after .surrogateCut rest)
  | some _, cs => .error (Stop.after .surrogateCut cs)
  | none, '"' :: rest => .ok ([], rest)
  | none, '\\' :: c :: rest =>
    match unescape? c with
    | some x => withChar x (chars none rest)
    | none => .error (Stop.after .invalidEscape (c :: rest))
  | none, c :: rest =>
    if c.toNat < 0x20 then .error (Stop.after .controlCharacter (c :: rest))
    else withChar c (chars none rest)

/-- Passes over a string up to its closing quote. -/
def skipString : List Char → Except Stop (List Char)
  | [] => .error ⟨.endOfString, 0⟩
  | ['\\'] => .error ⟨.endOfString, 0⟩
  | '"' :: rest => .ok rest
  | '\\' :: 'u' :: a :: b :: c :: d :: rest =>
    if (unit? a b c d).isSome then skipString rest
    else .error (unitStop (a :: b :: c :: d :: rest))
  | '\\' :: 'u' :: rest => .error (unitStop rest)
  | '\\' :: c :: rest =>
    if (unescape? c).isSome then skipString rest
    else .error (Stop.after .invalidEscape (c :: rest))
  | c :: rest =>
    if c.toNat < 0x20 then .error (Stop.before .controlCharacter (c :: rest)) else skipString rest

end ObjectRuntime.Json
