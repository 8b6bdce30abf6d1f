import ObjectRuntime.NameTable
import ObjectRuntime.World
set_option autoImplicit false

/-!
# Modules

A module is a named table of functions that imports other modules.  A lookup may search the
imports too: each is searched with its own imports before the next one, in the order in which they
were added.  Modules change after they are created, so an import graph may have cycles; the depth
of a search is therefore bounded, and a search that leaves the bound never ends.
-/

namespace ObjectRuntime.Module

variable {κ : Type}

/-- The name of the entry function. -/
def entryName : String := "__tvm_main__"

/-- The kind of the system library. -/
def systemKind : String := "system_lib"

/-- A new module without functions and imports. -/
def make (kind : String) : Run κ ObjId := Run.create .module (.module ⟨kind, [], []⟩)

/-- The table of a module. -/
def table? (w : World κ) (id : ObjId) : Option ModuleTable :=
  match w.payload? id with
  | some (.module t) => some t
  | _ => none

/-- The table of a module; nothing stands for an empty one. -/
def table (w : World κ) (id : ObjId) : ModuleTable := (table? w id).getD ⟨"", [], []⟩

/-- The names of the functions, sorted. -/
def functionNames (t : ModuleTable) : List String := NameTable.sortedNames t.functions

/-- Adds a function or replaces the one with the same name.  The reference is taken over. -/
def register (id : ObjId) (name : String) (f : Ref) : Run κ Unit := do
  let t := table (← get) id
  let replaced := (t.functions.lookup name).join
  Run.modifyHeap (·.setPayload id (.module { t with functions := NameTable.put name f t.functions }))
  Run.releaseAll replaced.toList

/-- Adds an import.  The reference is taken over. -/
def addImport (id : ObjId) (imported : Ref) : Run κ Unit := do
  let t := table (← get) id
  Run.modifyHeap (·.setPayload id (.module { t with imports := t.imports ++ [imported] }))

/-- The outcome of a search. -/
inductive Search where
  | found (f : Ref)
  | missing
  /-- The bound was left. -/
  | endless
  /-- An import refers to nothing. -/
  | nullImport
  deriving DecidableEq, Repr

/-- The first outcome that is not `missing`. -/
def firstFound (search : Ref → Search) : List Ref → Search
  | [] => .missing
  | m :: rest =>
    match search m with
    | .missing => firstFound search rest
    | answer => answer

/-- Searches a module and its imports, depth first. -/
def searchWithin (w : World κ) (name : String) : Nat → Ref → Search
  | _, none => .nullImport
  | 0, some _ => .endless
  | depth + 1, some id =>
    let t := table w id
    match t.functions.lookup name with
    | some f => .found f
    | none => firstFound (searchWithin w name depth) t.imports

/-- Searches a module, and its imports if asked to.  A path of imports without a repetition is not
longer than the number of objects. -/
def search (w : World κ) (id : ObjId) (name : String) (imports : Bool) : Search :=
  match (table w id).functions.lookup name with
  | some f => .found f
  | none => if imports then searchWithin w name (w.heap.cells.size + 1) (some id) else .missing

/-- The function that a search finds, as a reference of the caller's own. -/
def lookup (id : ObjId) (name : String) (imports : Bool) : Run κ (Option Ref) := do
  match search (← get) id name imports with
  | .found f =>
    Run.retainRef f
    return some f
  | .missing => return none
  | .endless => Run.panic .stackExhausted
  | .nullImport => Run.panic (.nullDereference "Module")

/-- The function that a search finds, which has to exist. -/
def lookupChecked (id : ObjId) (name : String) (imports : Bool) : Run κ Ref := do
  match ← lookup id name imports with
  | some f => return f
  | none => Run.fail (.functionMissing name)

/-- The system library, which exists from its first use on and is never destroyed. -/
def systemLibrary : Run κ ObjId := do
  let id ← Run.demand World.systemLibrary (fun library w => { w with systemLibrary := library })
    (make systemKind)
  Run.retain id
  return id

end ObjectRuntime.Module
