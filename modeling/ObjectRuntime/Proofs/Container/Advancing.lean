import ObjectRuntime.Container.Array
import ObjectRuntime.Container.Map
import ObjectRuntime.Proofs.Object.Advancing
set_option autoImplicit false

/-!
# What containers do to types

Like conversions, the operations on arrays and maps do nothing to the table of types but look
classes up: those of containers and strings, and those that the types of the elements name.
-/

namespace ObjectRuntime

open Run (Advances)

variable {κ : Type} {S : ObjectClass → Prop}

namespace Run

theorem advances_retainRef (r : Ref) : Advances S (retainRef r : Run κ Unit) := by
  cases r with
  | none => exact advances_pure ()
  | some id => exact advances_modifyHeap _

theorem advances_releaseAll (ids : List ObjId) : Advances S (releaseAll ids : Run κ Unit) :=
  advances_modifyHeap _

section Covered

variable (hS : ObjectClass.Covers S)
include hS

theorem advances_downcast {t : RefType} (ht : t.Within S) (r : Ref) :
    Advances S (downcast t r : Run κ Ref) :=
  (advances_askType hS ht r).bind fun _ => advances_query _

theorem advances_encodeRef (r : Ref) (moved : Bool) :
    Advances S (encodeRef r moved : Run κ Value) := by
  refine ((advances_travel hS r moved).releasingOnFault _).bind fun v => ?_
  dsimp only
  split
  · exact (advances_releaseAll _).bind fun _ => advances_pure v
  · exact advances_pure v

end Covered

end Run

section Covered

variable (hS : ObjectClass.Covers S)
include hS

/-! ## Arrays -/

namespace Arr

theorem covered_array : S .array := hS.builtins .array (by decide)

theorem advances_ofList (elems : List Ref) : Advances S (ofList elems : Run κ Ref) :=
  (Run.advances_create (covered_array hS) _).map some

theorem advances_makeUnique (r : Ref) : Advances S (makeUnique r : Run κ ObjId) := by
  cases r with
  | none => exact Run.advances_create (covered_array hS) _
  | some id =>
      refine Run.advances_get fun w => ?_
      split
      · exact Run.advances_pure id
      · refine (Run.advances_forM Run.advances_retainRef _).bind fun _ => ?_
        refine (Run.advances_create (covered_array hS) _).bind fun copy => ?_
        exact (Run.advances_modifyHeap _).bind fun _ => Run.advances_pure copy

theorem advances_push (r value : Ref) : Advances S (push r value : Run κ Ref) := by
  refine ((advances_makeUnique hS r).releasingOnFault _).bind fun id => Run.advances_get fun w => ?_
  exact (Run.advances_modifyHeap _).bind fun _ => Run.advances_pure _

theorem advances_set (r value : Ref) (index : Int) :
    Advances S (set r index value : Run κ Ref) := by
  refine Run.advances_get fun w => ?_
  refine ((Run.advances_ofExcept _).releasingOnFault _).bind fun i => ?_
  refine (advances_makeUnique hS r).bind fun id => Run.advances_get fun w => ?_
  refine (Run.advances_modifyHeap _).bind fun _ => ?_
  exact (Run.advances_releaseAll _).bind fun _ => Run.advances_pure _

theorem advances_get {elem : RefType} (helem : elem.Within S) (r : Ref) (index : Int) :
    Advances S (get elem r index : Run κ Ref) := by
  refine Run.advances_get fun w => (Run.advances_ofExcept _).bind fun i => ?_
  refine (Run.advances_downcast hS helem _).bind fun e => ?_
  exact (Run.advances_retainRef e).bind fun _ => Run.advances_pure e

theorem advances_items {elem : RefType} (helem : elem.Within S) (r : Ref) :
    Advances S (items elem r : Run κ (List Ref)) := by
  refine (Run.advances_askType hS (t := .array elem) helem r).bind fun _ => ?_
  exact Run.advances_get fun w => Run.advances_ofFallible _

end Arr

/-! ## Maps -/

namespace Dict

theorem covered_map : S .map := hS.builtins .map (by decide)

theorem advances_ofList (pairs : List (Ref × Ref)) : Advances S (ofList pairs : Run κ Ref) := by
  refine (Run.advances_collectEntries hS pairs).bind fun entries => ?_
  exact (Run.advances_create (covered_map hS) _).bind fun id => Run.advances_pure _

theorem advances_makeUnique (r : Ref) : Advances S (makeUnique r : Run κ ObjId) := by
  cases r with
  | none => exact Run.advances_create (covered_map hS) _
  | some id =>
      refine Run.advances_get fun w => ?_
      split
      · exact Run.advances_pure id
      · refine (Run.advances_forM (fun e => ?_) _).bind fun _ => ?_
        · exact (Run.advances_retainRef _).bind fun _ => Run.advances_retainRef _
        · refine (Run.advances_create (covered_map hS) _).bind fun copy => ?_
          exact (Run.advances_modifyHeap _).bind fun _ => Run.advances_pure copy

theorem advances_askLookup (r key : Ref) : Advances S (askLookup r key : Run κ Unit) := by
  refine Run.advances_get fun w => ?_
  split
  · exact Run.advances_askKey hS key
  · exact Run.advances_pure ()

theorem advances_insert (r key value : Ref) : Advances S (insert r key value : Run κ Ref) := by
  have hask : Advances S (do
      let _ ← Run.touch .map
      Run.askKey key : Run κ Unit) :=
    (Run.advances_touch (covered_map hS)).bind fun _ => Run.advances_askKey hS key
  refine (hask.releasingOnFault _).bind fun _ => (advances_makeUnique hS r).bind fun id =>
    Run.advances_get fun w => (Run.advances_modifyHeap _).bind fun _ => ?_
  dsimp only
  split
  · exact (Run.advances_releaseAll _).bind fun _ => Run.advances_pure _
  · exact (Run.advances_pure ()).bind fun _ => Run.advances_pure _

theorem advances_remove (r key : Ref) : Advances S (remove r key : Run κ (Ref × Bool)) := by
  refine (advances_askLookup hS r key).bind fun _ => Run.advances_get fun w => ?_
  split
  · exact Run.advances_pure _
  · refine (advances_makeUnique hS r).bind fun id => Run.advances_get fun w => ?_
    refine (Run.advances_modifyHeap _).bind fun _ => ?_
    exact (Run.advances_releaseAll _).bind fun _ => Run.advances_pure _

theorem advances_get {value : RefType} (hvalue : value.Within S) (r key : Ref) :
    Advances S (get value r key : Run κ Ref) := by
  refine (Run.advances_askKey hS key).bind fun _ => Run.advances_get fun w => ?_
  split
  · exact Run.advances_throw _
  · refine (Run.advances_downcast hS hvalue _).bind fun v => ?_
    exact (Run.advances_retainRef v).bind fun _ => Run.advances_pure v

theorem advances_items {key value : RefType} (hkey : key.Within S) (hvalue : value.Within S)
    (r : Ref) : Advances S (items key value r : Run κ (List (Ref × Ref))) := by
  refine Run.advances_get fun w => Advances.bind ?_ fun _ =>
    Run.advances_get fun w => Run.advances_ofFallible _
  refine Run.advances_askWhile (fun e : Ref × Ref => ?_) _ _
  exact (Run.advances_askType hS hkey e.1).bind fun _ => Run.advances_askType hS hvalue e.2

end Dict

end Covered

end ObjectRuntime
