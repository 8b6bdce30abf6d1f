import ObjectRuntime.Text.Quoted
set_option autoImplicit false

/-!
# Addresses in texts

Where an object is kept is no part of a report.  A text names the place of an object by `mask`, and
`hide` puts the mask in place of whatever else in a text is written like an address.
-/

namespace ObjectRuntime.AddressText

/-- What stands for an address. -/
def mask : String := "@ADDR"

/-- Replaces addresses: an at sign, the prefix of base sixteen and the digits behind it.  The flag
says that such digits have just been left out. -/
def hideFrom : Bool → List Char → List Char
  | _, '@' :: '0' :: 'x' :: rest => mask.toList ++ hideFrom true rest
  | inside, c :: rest =>
    if inside && (hexDigit? c).isSome then hideFrom true rest else c :: hideFrom false rest
  | _, [] => []

/-- A text with the mask in place of each address. -/
def hide (s : String) : String := String.ofList (hideFrom false s.toList)

end ObjectRuntime.AddressText
