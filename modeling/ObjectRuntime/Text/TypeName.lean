set_option autoImplicit false

/-!
# Short type names

A type name may qualify each of its parts with a path.  The short name keeps the last segment of
every path and all punctuation between the parts.
-/

namespace ObjectRuntime.TypeName

/-- Characters that separate the parts of a type name. -/
def isSeparator (c : Char) : Bool := "<>,()[]&; ".toList.contains c

/-- What follows the last pair of colons. -/
def lastSegment : List Char → List Char
  | [] => []
  | ':' :: ':' :: rest => lastSegment rest
  | c :: rest =>
    let tail := lastSegment rest
    if tail.length < rest.length then tail else c :: rest

/-- Strips the path of each part; `part` holds the characters of the part being read. -/
def stripFrom (part : List Char) : List Char → List Char
  | [] => lastSegment part
  | c :: rest =>
    if isSeparator c then lastSegment part ++ c :: stripFrom [] rest
    else stripFrom (part ++ [c]) rest

/-- The type name without paths. -/
def short (full : String) : String := String.ofList (stripFrom [] full.toList)

end ObjectRuntime.TypeName
