import ObjectRuntime.Proofs.Container.Map
import ObjectRuntime.Proofs.Reflection.Building
set_option autoImplicit false

/-!
# Containers of known classes

An operation asks for classes and registers those that are new, which may fail.  In a world that
knows them it goes through, and changes nothing but the heap.
-/

namespace ObjectRuntime

variable {κ : Type} {w : World κ}

/-- Of these classes each has been looked up. -/
def World.Knows (w : World κ) (cs : List ObjectClass) : Prop :=
  ∀ c ∈ cs, ∃ first, w.types.classIndex? c = some first

/-- A container with one owner can be had if its class is known, and only the heap changes. -/
theorem Run.unique_of_classIndex? {c : ObjectClass} {first : Nat}
    (hc : w.types.classIndex? c = some first) (payload : Payload κ) (r : Ref) :
    ∃ id h, Run.unique c payload r w = (.ok id, w.withHeap h) := by
  cases r with
  | none => exact ⟨_, _, Run.create_of_classIndex? (h := w.heap) hc payload⟩
  | some a =>
      by_cases hone : w.heap.count a = 1
      · exact ⟨a, w.heap, Run.unique_of_one hone⟩
      · rw [Run.unique_of_many hone]
        exact ⟨_, _, (run_bind_of_ok rfl).trans ((run_bind_of_ok
          (Run.create_of_classIndex? (h := w.heap.retainAll payload.references) hc payload)).trans rfl)⟩

/-- A value can be put under a key once the classes that this asks for are known. -/
theorem Dict.insert_of_knows (hknows : w.Knows [.map, .string]) (r key value : Ref) :
    ∃ r' h, Dict.insert r key value w = (.ok r', w.withHeap h) := by
  obtain ⟨first, hfirst⟩ := hknows .map (by decide)
  obtain ⟨text, htext⟩ := hknows .string (by decide)
  have hasks : Run.askKey key w = (.ok (), w) :=
    Run.askKey_of_answered fun id _ => ⟨text, htext, .inr trivial⟩
  have hask : Dict.askInsert key w = (.ok (), w) :=
    (run_bind_of_ok (Run.touch_of_classIndex? hfirst)).trans hasks
  obtain ⟨id, h, hmake⟩ := Run.unique_of_classIndex? hfirst (.map (w.entries r)) r
  rw [← Dict.makeUnique_eq] at hmake
  rw [Dict.insert_eq, run_bind_of_ok (Run.releasingOnFault_of_ok hask), run_bind_of_ok hmake]
  exact ⟨_, _, rfl⟩

end ObjectRuntime
