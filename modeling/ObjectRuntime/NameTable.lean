set_option autoImplicit false

/-!
# Tables by name

A table is a list of names with what they stand for.  `put` keeps the place of a name that is
already there and adds a new one at the end, so a name occurs at most once in a table built by it.
-/

namespace ObjectRuntime.NameTable

variable {α : Type}

/-- Sets what a name stands for. -/
def put (name : String) (a : α) : List (String × α) → List (String × α)
  | [] => [(name, a)]
  | (n, b) :: rest => if n = name then (n, a) :: rest else (n, b) :: put name a rest

/-- The table of a list in which the last occurrence of a name counts. -/
def ofList (entries : List (String × α)) : List (String × α) :=
  entries.foldl (fun t (name, a) => put name a t) []

/-- Forgets a name. -/
def erase (name : String) (t : List (String × α)) : List (String × α) :=
  t.filter fun (n, _) => n ≠ name

/-- The names in order. -/
def sortedNames (t : List (String × α)) : List String := (t.map (·.1)).mergeSort

/-- The entries in the order of their names. -/
def sorted (t : List (String × α)) : List (String × α) := t.mergeSort fun a b => a.1 ≤ b.1

end ObjectRuntime.NameTable
