import ObjectRuntime.Text.Json.Strings
set_option autoImplicit false

/-!
# Reading JSON texts

Readers of texts, lists, texts by name and records, which stop at the first place where the text is
not what they want.  A record is written as an object, where fields of other names are passed over
and no field is given twice, or as an array of its first fields in their order.
-/

namespace ObjectRuntime.Json

/-! ## Parts between values -/

/-- Blanks between the parts of a text. -/
def isBlank (c : Char) : Bool := c == ' ' || c == '\n' || c == '\t' || c == '\r'

/-- Skips blanks. -/
def skipBlanks (cs : List Char) : List Char := cs.dropWhile isBlank

/-- The next character that is not blank and what is behind it.  `atEnd` is what is wrong if there
is none. -/
def next (atEnd : Cause) (cs : List Char) : Except Stop (Char × List Char) :=
  match skipBlanks cs with
  | c :: rest => .ok (c, rest)
  | [] => .error ⟨atEnd, 0⟩

/-- Passes over the colon behind a key. -/
def colon (cs : List Char) : Except Stop (List Char) := do
  let (c, rest) ← next .endOfObject cs
  if c = ':' then return rest else .error (Stop.after .expectedColon (c :: rest))

/-- Passes over the letters of a word. -/
def word : List Char → List Char → Except Stop (List Char)
  | [], cs => .ok cs
  | _ :: _, [] => .error ⟨.endOfValue, 0⟩
  | letter :: letters, c :: rest =>
    if c = letter then word letters rest else .error (Stop.after .expectedWord (c :: rest))

/-- Looks for another element of a list: a comma and something that is not the end of the list. -/
def hasElement (first : Bool) (cs : List Char) : Except Stop (Bool × List Char) := do
  let (c, rest) ← next .endOfList cs
  if c = ']' then return (false, rest)
  else if first then return (true, c :: rest)
  else if c = ',' then
    let (d, rest) ← next .endOfValue rest
    if d = ']' then .error (Stop.after .trailingComma (d :: rest)) else return (true, d :: rest)
  else .error (Stop.after .expectedListEnd (c :: rest))

/-- Looks for another field of an object, and passes over the opening quote of its key. -/
def hasField (first : Bool) (cs : List Char) : Except Stop (Bool × List Char) := do
  let key (c : Char) (rest : List Char) : Except Stop (Bool × List Char) :=
    if c = '"' then .ok (true, rest) else .error (Stop.after .keyNotText (c :: rest))
  let (c, rest) ← next .endOfObject cs
  if c = '\x7d' then return (false, rest)
  else if first then key c rest
  else if c = ',' then
    let (d, rest) ← next .endOfValue rest
    if d = '\x7d' then .error (Stop.after .trailingComma (d :: rest)) else key d rest
  else .error (Stop.after .expectedObjectEnd (c :: rest))

/-! ## Values that are passed over -/

/-- Passes over the elements of a list that is not empty, up to the closing bracket. -/
def skipElements (skip : List Char → Except Stop (List Char)) :
    Nat → List Char → Except Stop (List Char)
  | 0, cs => .error (Stop.before .endOfList cs)
  | bound + 1, cs => do
    let (c, rest) ← next .endOfList (← skip cs)
    if c = ',' then skipElements skip bound rest
    else if c = ']' then return rest
    else .error (Stop.after .expectedListEnd (c :: rest))

/-- Passes over the fields of an object that is not empty, up to the closing brace. -/
def skipFields (skip : List Char → Except Stop (List Char)) :
    Nat → List Char → Except Stop (List Char)
  | 0, cs => .error (Stop.before .endOfObject cs)
  | bound + 1, cs => do
    let (c, rest) ← next .endOfObject cs
    if c = '"' then
      let (c, rest) ← next .endOfObject (← skip (← colon (← skipString rest)))
      if c = ',' then skipFields skip bound rest
      else if c = '\x7d' then return rest
      else .error (Stop.after .expectedObjectEnd (c :: rest))
    else .error (Stop.after .keyNotText (c :: rest))

/-- Passes over a value that is nested no deeper than the bound. -/
def skipValue : Nat → List Char → Except Stop (List Char)
  | 0, cs => .error (Stop.before .expectedValue cs)
  | depth + 1, cs => do
    let (c, rest) ← next .endOfValue cs
    match c with
    | '"' => skipString rest
    | '[' =>
      let (d, behind) ← next .endOfList rest
      if d = ']' then return behind else skipElements (skipValue depth) rest.length rest
    | '\x7b' =>
      let (d, behind) ← next .endOfObject rest
      if d = '\x7d' then return behind else skipFields (skipValue depth) rest.length rest
    | 'n' => word "ull".toList rest
    | 't' => word "rue".toList rest
    | 'f' => word "alse".toList rest
    | c =>
      if c = '-' || isDigit c then (numeral .invalidNumber (c :: rest)).map Prod.snd
      else .error (Stop.after .expectedValue (c :: rest))

/-! ## Values that are read -/

/-- Tells what stands at the next place and reads it, except for lists and objects. -/
def found (cs : List Char) : Except Stop (Found × List Char) := do
  let (c, rest) ← next .endOfValue cs
  match c with
  | '"' =>
    let (s, rest) ← chars none rest
    return (.text (String.ofList s), rest)
  | '[' => return (.list, c :: rest)
  | '\x7b' => return (.object, c :: rest)
  | 'n' => return (.null, ← word "ull".toList rest)
  | 't' => return (.bool true, ← word "rue".toList rest)
  | 'f' => return (.bool false, ← word "alse".toList rest)
  | c =>
    if c = '-' || isDigit c then number (c :: rest)
    else .error (Stop.after .expectedValue (c :: rest))

/-- Stops because something else stands where a value is wanted. -/
def mismatch {α : Type} (wanted : String) : Step α := fun cs => do
  let (f, rest) ← found cs
  .error (Stop.before (.wrongType f wanted) rest)

/-- Reads a natural number below `2 ^ 64`. -/
def readNatural (wanted : String) : Step Nat := fun cs => do
  match ← found cs with
  | (.integer n, rest) =>
    if 0 ≤ n then return (n.toNat, rest)
    else .error (Stop.before (.wrongValue (.integer n) wanted) rest)
  | (f, rest) => .error (Stop.before (.wrongType f wanted) rest)

/-- Reads a text. -/
def readText : Step String := fun cs => do
  match ← found cs with
  | (.text s, rest) => return (s, rest)
  | (f, rest) => .error (Stop.before (.wrongType f "a string") rest)

/-- Reads a text or nothing. -/
def readOptionalText : Step (Option String) := fun cs =>
  match skipBlanks cs with
  | 'n' :: rest => do return (none, ← word "ull".toList rest)
  | cs => do
    let (s, rest) ← readText cs
    return (some s, rest)

/-- Reads the elements of a list up to the closing bracket. -/
def elements {α : Type} (read : Step α) : Nat → Bool → Step (List α)
  | 0, _, cs => .error (Stop.before .endOfList cs)
  | bound + 1, first, cs => do
    match ← hasElement first cs with
    | (false, rest) => return ([], rest)
    | (true, rest) =>
      let (a, rest) ← read rest
      let (as, rest) ← elements read bound false rest
      return (a :: as, rest)

/-- Reads a list. -/
def readList {α : Type} (read : Step α) : Step (List α) := fun cs => do
  match ← next .endOfValue cs with
  | ('[', rest) => elements read cs.length true rest
  | (c, rest) => mismatch "a sequence" (c :: rest)

/-- Reads texts with their names up to the closing brace. -/
def entries : Nat → Bool → Step (List (String × String))
  | 0, _, cs => .error (Stop.before .endOfObject cs)
  | bound + 1, first, cs => do
    match ← hasField first cs with
    | (false, rest) => return ([], rest)
    | (true, rest) =>
      let (key, rest) ← chars none rest
      let (s, rest) ← readText (← colon rest)
      let (es, rest) ← entries bound false rest
      return ((String.ofList key, s) :: es, rest)

/-- Reads texts by name, in the order in which they are written. -/
def readEntries : Step (List (String × String)) := fun cs => do
  match ← next .endOfValue cs with
  | ('\x7b', rest) => entries cs.length true rest
  | (c, rest) => mismatch "a map" (c :: rest)

/-! ## Records -/

/-- A field of a record that is made step by step: its name, whether it has to be there, and how its
value is read into the record. -/
structure Member (σ : Type) where
  name : String
  required : Bool
  read : σ → Step σ

/-- A field whose value is put into the record. -/
def Member.of {σ α : Type} (name : String) (required : Bool) (read : Step α) (put : σ → α → σ) :
    Member σ :=
  ⟨name, required, fun s cs => (read cs).map fun (a, rest) => (put s a, rest)⟩

variable {σ : Type}

/-- Passes over the bracket behind the last field of a record. -/
def closeList (cs : List Char) : Except Stop (List Char) := do
  let (c, rest) ← next .endOfList cs
  if c = ']' then return rest
  else if c = ',' then
    match skipBlanks rest with
    | ']' :: rest => .error (Stop.after .trailingComma (']' :: rest))
    | cs => .error (Stop.after .trailingCharacters cs)
  else .error (Stop.after .trailingCharacters (c :: rest))

/-- Reads the fields of a record in their order, from the one with the given number on. -/
def inOrder (wanted : String) : List (Member σ) → Nat → σ → Step σ
  | [], _, s, cs => do return (s, ← closeList cs)
  | m :: ms, i, s, cs => do
    match ← hasElement (i == 0) cs with
    | (true, rest) =>
      let (s, rest) ← m.read s rest
      inOrder wanted ms (i + 1) s rest
    | (false, rest) =>
      match (m :: ms).findIdx? Member.required with
      | some j => .error (Stop.before (.wrongLength (i + j) wanted) rest)
      | none => return (s, rest)

/-- The place at which a field is found to be given twice. -/
def behindKey (cs : List Char) : List Char :=
  match skipBlanks cs with
  | '\x7d' :: rest => rest
  | cs => cs

/-- Reads the fields of a record by their names, of which some have been given already. -/
def byName (members : List (Member σ)) : Nat → List String → Bool → σ → Step σ
  | 0, _, _, _, cs => .error (Stop.before .endOfObject cs)
  | bound + 1, given, first, s, cs => do
    match ← hasField first cs with
    | (false, rest) =>
      match members.find? fun m => m.required && !given.contains m.name with
      | some m => .error (Stop.before (.fieldMissing m.name) rest)
      | none => return (s, rest)
    | (true, rest) =>
      let (key, rest) ← chars none rest
      let key := String.ofList key
      match members.find? fun m => m.name == key with
      | some m =>
        if given.contains key then .error (Stop.before (.fieldRepeated key) (behindKey rest))
        else
          let (s, rest) ← m.read s (← colon rest)
          byName members bound (key :: given) false s rest
      | none =>
        let rest ← colon rest
        byName members bound given false s (← skipValue (rest.length + 1) rest)

/-- Reads a record, which starts out as given and whose fields are put into it. -/
def readRecord (title : String) (members : List (Member σ)) (start : σ) : Step σ := fun cs => do
  match ← next .endOfValue cs with
  | ('[', rest) =>
    let count := members.length
    inOrder s!"{title} with {count} elements" members 0 start rest
  | ('\x7b', rest) => byName members cs.length [] true start rest
  | (c, rest) => mismatch title (c :: rest)

/-- Reads a text that holds one value and blanks. -/
def readAll {α : Type} (read : Step α) (text : String) : Except Defect α :=
  let whole : Except Stop α := do
    let (a, rest) ← read text.toList
    match skipBlanks rest with
    | [] => return a
    | cs => .error (Stop.after .trailingCharacters cs)
  whole.mapError (Stop.toDefect text)

end ObjectRuntime.Json
