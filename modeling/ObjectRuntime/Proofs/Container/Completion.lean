import ObjectRuntime.Proofs.Container.Array
import ObjectRuntime.Proofs.Container.Box
import ObjectRuntime.Proofs.Container.Map
import ObjectRuntime.Proofs.Container.PlainValue
import ObjectRuntime.Proofs.TypeTable.Serving
set_option autoImplicit false

/-!
# Operations that come to an end

An operation on containers fails for want of a class only.  While the type table serves the classes
of strings, boxes and containers, each operation has a result, and the table goes on serving them.
-/

namespace ObjectRuntime

open TypeTable (Serves)

/-- The classes of handles can be had. -/
def World.ServesHandles {κ : Type} (w : World κ) : Prop := w.types.Serves Handles.classes

/-- They can be had before anything has happened. -/
theorem World.servesHandles_initial {κ : Type} : (World.initial : World κ).ServesHandles :=
  TypeTable.Roomy.initial.serves.mono (by decide)

namespace Run

variable {κ α β : Type} {w w' : World κ} {c : ObjectClass} {cs : List ObjectClass} {id : ObjId}

/-- The operation has a result, and the classes of handles can still be had afterwards. -/
def Completes (w : World κ) (x : Run κ α) : Prop := ∃ a w', x w = (.ok a, w') ∧ w'.ServesHandles

/-! ## Sequences -/

theorem completes_pure (h : w.ServesHandles) (a : α) : Completes w (pure a : Run κ α) :=
  ⟨a, w, rfl, h⟩

theorem Completes.bind {x : Run κ α} {f : α → Run κ β} (hx : Completes w x)
    (hf : ∀ a w', x w = (.ok a, w') → w'.ServesHandles → Completes w' (f a)) :
    Completes w (x >>= f) := by
  obtain ⟨a, w₁, hrun, h₁⟩ := hx
  obtain ⟨b, w₂, hrun', h₂⟩ := hf a w₁ hrun h₁
  exact ⟨b, w₂, (run_bind_of_ok hrun).trans hrun', h₂⟩

theorem Completes.map {x : Run κ α} (f : α → β) (hx : Completes w x) : Completes w (f <$> x) := by
  obtain ⟨a, w₁, hrun, h₁⟩ := hx
  exact ⟨f a, w₁, run_map_of_ok hrun, h₁⟩

theorem completes_get {f : World κ → Run κ β} (hf : Completes w (f w)) :
    Completes w (get >>= f) := hf

theorem Completes.congr {x y : Run κ α} (hx : Completes w x) (heq : y w = x w) :
    Completes w y := by
  obtain ⟨a, w₁, hrun, h₁⟩ := hx
  exact ⟨a, w₁, heq.trans hrun, h₁⟩

theorem completes_modifyHeap (h : w.ServesHandles) (f : Heap κ → Heap κ) :
    Completes w (modifyHeap f) := ⟨(), _, rfl, h⟩

theorem Completes.releasingOnFault {x : Run κ α} (hx : Completes w x) (ids : List ObjId) :
    Completes w (releasingOnFault ids x) := by
  obtain ⟨a, w₁, hrun, h₁⟩ := hx
  exact ⟨a, w₁, releasingOnFault_eq_ok.mpr hrun, h₁⟩

theorem completes_forM {f : α → Run κ Unit}
    (hf : ∀ a (w : World κ), w.ServesHandles → Completes w (f a)) :
    ∀ (as : List α) {w : World κ}, w.ServesHandles → Completes w (as.forM f)
  | [], _, h => completes_pure h ()
  | a :: as, _, h => (hf a _ h).bind fun _ _ _ h₁ => completes_forM hf as h₁

/-! ## Classes -/

/-- A class that can be had is found, as is the root. -/
theorem touch_of_serves {ds : List ObjectClass} (hright : ∀ c ∈ ds, c.Rightful)
    (h : w.types.Serves ds) (hc : c = .root ∨ c ∈ ds) :
    ∃ first w', touch c w = (.ok first, w') ∧ w'.types.Serves ds := by
  rcases hc with rfl | hc
  · exact ⟨_, _, rfl, h⟩
  · obtain ⟨first, hfirst, hserves⟩ := h.touch hright hc
    refine ⟨first, { w with types := (w.types.touch c).2 }, ?_, hserves⟩
    simp only [touch, hfirst]

/-- Asking for classes that can be had succeeds. -/
theorem askClasses_of_serves {ds : List ObjectClass} (hright : ∀ c ∈ ds, c.Rightful)
    (h : w.types.Serves ds) (hcs : ∀ c ∈ cs, c = .root ∨ c ∈ ds) (id : ObjId) :
    ∃ w', askClasses id cs w = (.ok (), w') ∧ w'.types.Serves ds := by
  induction cs generalizing w with
  | nil => exact ⟨w, rfl, h⟩
  | cons c cs ih =>
      obtain ⟨hc, hcs⟩ := List.forall_mem_cons.mp hcs
      obtain ⟨first, w₁, htouch, h₁⟩ := touch_of_serves hright h hc
      rw [askClasses, run_bind_of_ok htouch, run_get_bind]
      split
      · exact ih h₁ hcs
      · exact ⟨w₁, rfl, h₁⟩

theorem rightful_handles : ∀ c ∈ Handles.classes, c.Rightful := by
  have hbuiltin : ∀ c ∈ Handles.classes, c ∈ ObjectClass.builtins := by decide
  exact fun c hc => ObjectClass.rightful_of_mem_builtins (hbuiltin c hc)

/-- The root and the classes of handles are found. -/
theorem completes_touch (h : w.ServesHandles) (hc : c = .root ∨ c ∈ Handles.classes) :
    Completes w (touch c) := touch_of_serves rightful_handles h hc

theorem completes_askClasses (h : w.ServesHandles)
    (hcs : ∀ c ∈ cs, c = .root ∨ c ∈ Handles.classes) (id : ObjId) :
    Completes w (askClasses id cs) := by
  obtain ⟨w', hrun, h'⟩ := askClasses_of_serves rightful_handles h hcs id
  exact ⟨(), w', hrun, h'⟩

theorem completes_askClass (h : w.ServesHandles) (hc : c = .root ∨ c ∈ Handles.classes)
    (id : ObjId) : Completes w (askClasses id [c]) :=
  completes_askClasses h (fun _ hmem => List.mem_singleton.mp hmem ▸ hc) id

theorem completes_askWhile {ask : α → Run κ Unit} (passes : World κ → α → Bool)
    (hask : ∀ a (w : World κ), w.ServesHandles → Completes w (ask a)) (as : List α)
    (h : w.ServesHandles) : Completes w (askWhile ask passes as) := by
  induction as generalizing w with
  | nil => exact completes_pure h ()
  | cons a as ih =>
      refine (hask a w h).bind fun _ w₁ _ h₁ => completes_get ?_
      split
      · exact ih h₁
      · exact completes_pure h₁ ()

/-- Whether a reference is of the type of a handle can be asked. -/
theorem completes_askType (t : Handles.HandleType) (r : Ref) (h : w.ServesHandles) :
    Completes w (askType t.ref r) := by
  induction t generalizing r w with
  | object | string =>
      cases r with
      | none => exact completes_pure h ()
      | some id => exact completes_askClass h (by decide) id
  | box kind =>
      cases r with
      | none => cases kind <;> exact completes_pure h ()
      | some id => cases kind <;> exact completes_askClass h (by decide) id
  | array elem ih =>
      cases r with
      | none => exact completes_pure h ()
      | some id =>
          refine (completes_askClass h (by decide) id).bind fun _ w₁ _ h₁ => completes_get ?_
          exact completes_askWhile _ (fun r _ h => ih r h) _ h₁
  | map key value ihKey ihValue =>
      cases r with
      | none => exact completes_pure h ()
      | some id =>
          refine (completes_askClass h (by decide) id).bind fun _ w₁ _ h₁ => completes_get ?_
          refine completes_askWhile _ (fun e w h => ?_) _ h₁
          refine (ihKey e.1 h).bind fun _ w₁ _ h₁ => completes_get ?_
          split
          · exact ihValue e.2 h₁
          · exact completes_pure h₁ ()

theorem completes_askKey (h : w.ServesHandles) (key : Ref) : Completes w (askKey key) := by
  cases key with
  | none => exact completes_pure h ()
  | some id => exact completes_askClass h (by decide) id

/-! ## Failures -/

theorem attempt_of_ok {x : Run κ α} {a : α} (h : x w = (.ok a, w')) :
    attempt x w = (.ok (.ok a), w') := by
  simp only [attempt, h]

theorem attempt_of_error {x : Run κ α} {cause : Error} (h : x w = (.error (.error cause), w')) :
    attempt x w = (.ok (.error cause), w') := by
  simp only [attempt, h]

/-! ## Objects -/

theorem completes_create (h : w.ServesHandles) (hc : c ∈ Handles.classes) (payload : Payload κ) :
    Completes w (create c payload) := by
  obtain ⟨first, w₁, htouch, h₁⟩ := completes_touch h (.inr hc)
  exact ⟨_, _, create_of_touch htouch, h₁⟩

theorem completes_unique (h : w.ServesHandles) (hc : c ∈ Handles.classes) (payload : Payload κ)
    (r : Ref) : Completes w (unique c payload r) := by
  cases r with
  | none => exact completes_create h hc payload
  | some a =>
      by_cases hone : w.heap.count a = 1
      · exact ⟨a, w, unique_of_one hone, h⟩
      · refine Completes.congr (x := replace a c payload) ?_ (unique_of_many hone)
        refine (completes_modifyHeap h _).bind fun _ w₁ _ h₁ => ?_
        refine (completes_create h₁ hc payload).bind fun copy w₂ _ h₂ => ?_
        exact (completes_modifyHeap h₂ _).bind fun _ w₃ _ h₃ => completes_pure h₃ copy

end Run

open Run (Completes)

variable {κ : Type} {w w' : World κ}

/-! ## Arrays -/

namespace Arr

theorem completes_makeUnique (h : w.ServesHandles) (r : Ref) : Completes w (makeUnique r) :=
  (Run.completes_unique h (by decide) _ r).congr (makeUnique_eq r w)

theorem completes_ofList (h : w.ServesHandles) (elems : List Ref) : Completes w (ofList elems) :=
  (Run.completes_create h (by decide) _).map _

theorem completes_push (h : w.ServesHandles) (r value : Ref) : Completes w (push r value) := by
  refine ((completes_makeUnique h r).releasingOnFault _).bind fun id w₁ _ h₁ =>
    Run.completes_get ?_
  exact (Run.completes_modifyHeap h₁ _).bind fun _ w₂ _ h₂ => Run.completes_pure h₂ _

/-- An element is replaced if it is there. -/
theorem completes_set {r : Ref} {index : Int} {i : Nat} (h : w.ServesHandles)
    (hi : position (w.elements r).length index = .ok i) (value : Ref) :
    Completes w (set r index value) := by
  refine Run.completes_get ?_
  have hposition : Completes w (Run.ofExcept (position (w.elements r).length index)) :=
    ⟨i, w, Run.ofExcept_eq_ok.mpr ⟨hi, rfl⟩, h⟩
  refine (hposition.releasingOnFault _).bind fun i w₁ _ h₁ => ?_
  refine (completes_makeUnique h₁ r).bind fun id w₂ _ h₂ => Run.completes_get ?_
  refine (Run.completes_modifyHeap h₂ _).bind fun _ w₃ _ h₃ => ?_
  exact (Run.completes_modifyHeap h₃ _).bind fun _ w₄ _ h₄ => Run.completes_pure h₄ _

end Arr

/-! ## Boxes -/

namespace Box

theorem completes_make (h : w.ServesHandles) (c : BoxContent) : Completes w (make c) :=
  Run.completes_create h (Handles.mem_classes_of_box c) _

theorem completes_setValue (h : w.ServesHandles) (r : Ref) (c : BoxContent) :
    Completes w (setValue r c) := by
  cases r with
  | none => exact (completes_make h c).map _
  | some id =>
      refine Run.completes_get ?_
      split
      · exact (Run.completes_modifyHeap h _).bind fun _ w₁ _ h₁ => Run.completes_pure h₁ _
      · refine (completes_make h c).bind fun fresh w₁ _ h₁ => ?_
        exact (Run.completes_modifyHeap h₁ _).bind fun _ w₂ _ h₂ => Run.completes_pure h₂ _

end Box

/-! ## Maps -/

namespace Dict

theorem completes_makeUnique (h : w.ServesHandles) (r : Ref) : Completes w (makeUnique r) :=
  (Run.completes_unique h (by decide) _ r).congr (makeUnique_eq r w)

theorem completes_collectEntries (h : w.ServesHandles) (pairs : List (Ref × Ref)) :
    Completes w (Run.collectEntries pairs) := by
  have hasks : Completes w (pairs.forM fun e => Run.askKey e.1) :=
    Run.completes_forM (fun e _ h => Run.completes_askKey h e.1) pairs h
  refine (hasks.releasingOnFault _).bind fun _ w₁ _ h₁ => Run.completes_get ?_
  exact (Run.completes_modifyHeap h₁ _).bind fun _ w₂ _ h₂ => Run.completes_pure h₂ _

theorem completes_ofList (h : w.ServesHandles) (pairs : List (Ref × Ref)) :
    Completes w (ofList pairs) :=
  (completes_collectEntries h pairs).bind fun _ _ _ h₁ =>
    (Run.completes_create h₁ (by decide) _).bind fun _ _ _ h₂ => Run.completes_pure h₂ _

theorem completes_insert (h : w.ServesHandles) (r key value : Ref) :
    Completes w (insert r key value) := by
  rw [insert_eq]
  have hask : Completes w (askInsert key) :=
    (Run.completes_touch h (by decide)).bind fun _ _ _ h₁ => Run.completes_askKey h₁ key
  refine (hask.releasingOnFault _).bind fun _ w₁ _ h₁ => ?_
  refine (completes_makeUnique h₁ r).bind fun id w₂ _ h₂ => ?_
  have hput : Completes w₂ (put id key value) := by
    refine Run.completes_get ((Run.completes_modifyHeap h₂ _).bind fun _ w₃ _ h₃ => ?_)
    exact Run.completes_modifyHeap h₃ _
  exact hput.bind fun _ w₃ _ h₃ => Run.completes_pure h₃ _

theorem completes_askItems (h : w.ServesHandles) (key value : Handles.HandleType) (r : Ref) :
    Completes w (askItems key.ref value.ref r) :=
  Run.completes_get (Run.completes_askWhile _ (fun (e : Ref × Ref) _ h =>
    (Run.completes_askType key e.1 h).bind fun _ _ _ h₁ => Run.completes_askType value e.2 h₁) _ h)

theorem completes_askLookup (h : w.ServesHandles) (r key : Ref) :
    Completes w (askLookup r key) := by
  refine Run.completes_get ?_
  split
  · exact Run.completes_askKey h key
  · exact Run.completes_pure h ()

theorem completes_remove (h : w.ServesHandles) (r key : Ref) : Completes w (remove r key) := by
  rw [remove_eq]
  refine (completes_askLookup h r key).bind fun _ w₁ _ h₁ => Run.completes_get ?_
  split
  · exact Run.completes_pure h₁ _
  · refine (completes_makeUnique h₁ r).bind fun id w₂ _ h₂ => ?_
    have htake : ∀ e, Completes w₂ (takeOut id key e) := fun e =>
      Run.completes_get ((Run.completes_modifyHeap h₂ _).bind fun _ w₃ _ h₃ =>
        Run.completes_modifyHeap h₃ _)
    exact (htake _).bind fun _ w₃ _ h₃ => Run.completes_pure h₃ _

end Dict

end ObjectRuntime
