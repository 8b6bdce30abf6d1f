import ObjectRuntime.Text.CharClass
set_option autoImplicit false

/-!
# Quoted texts and numbers in base sixteen

A text shown for inspection stands between double quotes.  Quotes and backslashes are escaped,
a few control characters have short escapes, and every other character that would not be visible
is shown by its code point.
-/

namespace ObjectRuntime

/-- The digits of a number in base sixteen, in lower case, without leading zeros. -/
def hexDigits (n : Nat) : String := String.ofList (Nat.toDigits 16 n)

/-- The digits of a number in base sixteen, filled up with zeros on the left. -/
def hexPadded (width n : Nat) : String :=
  let ds := Nat.toDigits 16 n
  String.ofList (List.replicate (width - ds.length) '0' ++ ds)

/-- The value of a digit in base sixteen, in either case. -/
def hexDigit? (c : Char) : Option Nat :=
  if '0' ≤ c ∧ c ≤ '9' then some (c.toNat - '0'.toNat)
  else if 'a' ≤ c ∧ c ≤ 'f' then some (c.toNat - 'a'.toNat + 10)
  else if 'A' ≤ c ∧ c ≤ 'F' then some (c.toNat - 'A'.toNat + 10)
  else none

namespace Quoted

/-- How a character is shown inside a quoted text. -/
def showChar (c : Char) : String :=
  if c = '\x00' then "\\0"
  else if c = '\t' then "\\t"
  else if c = '\r' then "\\r"
  else if c = '\n' then "\\n"
  else if c = '\\' then "\\\\"
  else if c = '"' then "\\\""
  else if CharClass.isHidden c then "\\u\x7b" ++ hexDigits c.toNat ++ "\x7d"
  else c.toString

/-- The text between double quotes. -/
def quote (s : String) : String := "\"" ++ String.join (s.toList.map showChar) ++ "\""

end Quoted

end ObjectRuntime
