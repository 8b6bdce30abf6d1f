import ObjectRuntime.Container.Box
import ObjectRuntime.Proofs.Container.Unique
set_option autoImplicit false

/-!
# Boxes conserve references

A box holds no references.  Its content changes in place if it has one owner, and goes into a new
box otherwise.
-/

namespace ObjectRuntime

open Run (Conserves)
open World (Balanced)

variable {κ : Type} {P : κ → Prop} {w w' : World κ} {others : List ObjId} {id : ObjId} {r : Ref}
  {c : BoxContent}

namespace BoxContent

@[simp] theorem references_payload (c : BoxContent) : (c.payload : Payload κ).references = [] := by
  cases c <;> rfl

@[simp] theorem hooks_payload (c : BoxContent) : (c.payload : Payload κ).hooks = [] := by
  cases c <;> rfl

theorem suits (c : BoxContent) (cls : ObjectClass) : Run.Suits P cls (c.payload : Payload κ) := by
  cases c <;> exact trivial

theorem allows (c : BoxContent) (w : World κ) : w.Allows P c.payload := by
  cases c <;> exact trivial

end BoxContent

/-- A reference to a box, or to nothing. -/
def World.IsBox (w : World κ) (r : Ref) : Prop :=
  ∀ id, r = some id → ∃ c : BoxContent, w.payload? id = some c.payload

namespace Box

theorem conserves_make (hb : w.Balanced P others) :
    Conserves P w others (fun id => [id]) [] (make c) := by
  refine Run.conserves_create [] ?_ (c.suits c.cls)
  rw [BoxContent.references_payload]
  exact hb

theorem setValue_of_one (hone : w.heap.count id = 1) :
    setValue (some id) c w =
      (.ok (some id), { w with heap := w.heap.setPayload id c.payload }) := by
  rw [setValue, run_get_bind, if_pos hone]
  rfl

/-- A box with several owners is left to the others. -/
theorem setValue_of_many (hmany : w.heap.count id ≠ 1) :
    setValue (some id) c w = (some <$> Run.replace id c.cls c.payload) w := by
  rw [setValue, run_get_bind, if_neg hmany, Run.replace, BoxContent.references_payload,
    map_eq_pure_bind]
  simp only [bind_assoc, pure_bind]
  rfl

theorem conserves_setValue (hb : w.Balanced P (r.toList ++ others)) (hbox : w.IsBox r) :
    Conserves P w others Option.toList r.toList (setValue r c) := by
  cases r with
  | none => exact (conserves_make hb).map fun _ => rfl
  | some id =>
      obtain ⟨old, hcontent⟩ := hbox id rfl
      by_cases hone : w.heap.count id = 1
      · have hset : Conserves P w others (fun _ => [id]) [id]
            (Run.modifyHeap (·.setPayload id c.payload)) :=
          Run.conserves_setPayload [] [] [id] hb hone hcontent (by simp) (c.allows w) (by simp)
        have hdone : Conserves P w others Option.toList [id] (do
            Run.modifyHeap (·.setPayload id c.payload)
            return some id) := hset.bind fun _ w₁ _ _ hb₁ => Run.conserves_pure hb₁
        exact hdone.congr ((setValue_of_one hone).trans rfl)
      · have hreplace : Conserves P w others (fun id => [id]) [id]
            (Run.replace id c.cls c.payload) :=
          Run.conserves_replace hb (by simp) (c.suits c.cls)
        exact Conserves.congr (hreplace.map fun _ => rfl) (setValue_of_many hone)

end Box

end ObjectRuntime
