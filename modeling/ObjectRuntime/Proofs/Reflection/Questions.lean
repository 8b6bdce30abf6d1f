import ObjectRuntime.Proofs.Sequencing
import ObjectRuntime.Proofs.TypeTable.Lookups
import ObjectRuntime.Reflection.Inquiry
set_option autoImplicit false

/-!
# Questions and what they leave behind

A question that is asked of a running program looks classes up and changes nothing else
(`World.Asked`).  Once it has been answered, asking it again changes nothing at all.
-/

namespace ObjectRuntime

open TypeTable (Later Regular)

namespace World

variable {κ : Type} {w w' w'' : World κ} {id : ObjId} {c : ObjectClass} {cs : List ObjectClass}
  {first : Nat}

/-- The world after classes have been looked up. -/
structure Asked (w w' : World κ) : Prop where
  rest : w' = { w with types := w'.types }
  later : Later w.types w'.types

namespace Asked

theorem refl (h : w.types.Regular) : Asked w w := ⟨rfl, .refl h⟩

theorem trans (h : Asked w w') (h' : Asked w' w'') : Asked w w'' :=
  ⟨by rw [h'.rest, h.rest], h.later.trans h'.later⟩

theorem heap (h : Asked w w') : w'.heap = w.heap := by rw [h.rest]

theorem schemas (h : Asked w w') : w'.schemas = w.schemas := by rw [h.rest]

theorem payload? (h : Asked w w') (id : ObjId) : w'.payload? id = w.payload? id := by
  simp only [World.payload?, h.heap]

theorem typeIndex (h : Asked w w') (id : ObjId) : w'.typeIndex id = w.typeIndex id := by
  simp only [World.typeIndex, h.heap]

end Asked

/-- The object has been asked for the classes. -/
def Answered (w : World κ) (id : ObjId) (cs : List ObjectClass) : Prop :=
  w.types.Answers (w.typeIndex id) cs

/-- The classes of the boxes have been looked up. -/
def Reflecting (w : World κ) : Prop :=
  ∀ s ∈ Schema.builtins, ∃ first, w.types.classIndex? s.cls = some first

theorem Asked.answered (h : Asked w w') (hcs : w.Answered id cs) : w'.Answered id cs := by
  rw [Answered, h.typeIndex]
  exact h.later.answers hcs

theorem Asked.reflecting (h : Asked w w') (hboxes : w.Reflecting) : w'.Reflecting := by
  intro s hs
  obtain ⟨first, hfirst⟩ := hboxes s hs
  exact ⟨first, h.later.classIndex? hfirst⟩

end World

namespace Run

variable {κ : Type} {w w' : World κ} {id : ObjId} {c : ObjectClass} {cs : List ObjectClass}
  {first : Nat}

theorem touch_of_classIndex? (h : w.types.classIndex? c = some first) :
    touch c w = (.ok first, w) := by
  simp only [touch, TypeTable.touch_of_classIndex? h]

theorem asked_of_touch (h : w.types.Regular) (hc : c.Rightful)
    (hrun : touch c w = (.ok first, w')) :
    w.Asked w' ∧ w'.types.classIndex? c = some first := by
  obtain ⟨hlater, hindex⟩ := h.touch hc
  obtain ⟨hanswer, rfl⟩ := Prod.mk.inj hrun
  exact ⟨⟨rfl, hlater⟩, hindex first hanswer⟩

theorem asked_of_askClasses (h : w.types.Regular) (hcs : ∀ c ∈ cs, c.Rightful)
    (hrun : askClasses id cs w = (.ok (), w')) : w.Asked w' ∧ w'.Answered id cs := by
  induction cs generalizing w with
  | nil =>
      cases hrun
      exact ⟨.refl h, trivial⟩
  | cons c cs ih =>
      obtain ⟨hc, hcs⟩ := List.forall_mem_cons.mp hcs
      obtain ⟨first, w₁, htouch, hrun⟩ := run_bind_eq_ok.mp hrun
      obtain ⟨hasked, hfirst⟩ := asked_of_touch h hc htouch
      obtain ⟨_, _, hget, hrun⟩ := run_bind_eq_ok.mp hrun
      cases hget
      have hmember : w₁.isInstance id c = w₁.types.isInstance (w₁.typeIndex id) first c := by
        simp only [World.isInstance, hfirst]
      cases hinstance : w₁.isInstance id c with
      | true =>
          rw [hinstance] at hrun
          cases hrun
          exact ⟨hasked, first, hfirst, .inl (hmember ▸ hinstance)⟩
      | false =>
          rw [hinstance] at hrun
          obtain ⟨hrest, hanswers⟩ := ih hasked.later.regular hcs hrun
          exact ⟨hasked.trans hrest, first, hrest.later.classIndex? hfirst, .inr hanswers⟩

theorem askClasses_of_answered (h : w.Answered id cs) : askClasses id cs w = (.ok (), w) := by
  induction cs with
  | nil => rfl
  | cons c cs ih =>
      obtain ⟨first, hfirst, hrest⟩ := h
      rw [askClasses, run_bind_of_ok (touch_of_classIndex? hfirst), run_get_bind]
      cases hinstance : w.isInstance id c with
      | true => rfl
      | false =>
          have hmember : w.types.isInstance (w.typeIndex id) first c = false := by
            simpa only [World.isInstance, hfirst] using hinstance
          rw [hmember] at hrest
          exact ih (hrest.resolve_left Bool.false_ne_true)

theorem asked_of_touches {schemas : List Schema} (h : w.types.Regular)
    (hcs : ∀ s ∈ schemas, s.cls.Rightful)
    (hrun : (schemas.forM fun s => do let _ ← touch s.cls) w = (.ok (), w')) :
    w.Asked w' ∧ ∀ s ∈ schemas, ∃ first, w'.types.classIndex? s.cls = some first := by
  induction schemas generalizing w with
  | nil =>
      cases hrun
      exact ⟨.refl h, fun _ hs => nomatch hs⟩
  | cons s schemas ih =>
      obtain ⟨hs, hcs⟩ := List.forall_mem_cons.mp hcs
      obtain ⟨_, w₁, htouch, hrun⟩ := run_bind_eq_ok.mp hrun
      obtain ⟨first, _, htouch, hdone⟩ := run_bind_eq_ok.mp htouch
      cases hdone
      obtain ⟨hasked, hfirst⟩ := asked_of_touch h hs htouch
      obtain ⟨hrest, hknown⟩ := ih hasked.later.regular hcs hrun
      exact ⟨hasked.trans hrest,
        List.forall_mem_cons.mpr ⟨⟨first, hrest.later.classIndex? hfirst⟩, hknown⟩⟩

theorem asked_of_useReflection (h : w.types.Regular) (hrun : useReflection w = (.ok (), w')) :
    w.Asked w' ∧ w'.Reflecting := by
  refine asked_of_touches h (fun s hs => ?_) hrun
  simp only [Schema.builtins, List.mem_cons, List.not_mem_nil, or_false] at hs
  rcases hs with rfl | rfl | rfl
  all_goals exact ObjectClass.rightful_of_mem_builtins (by decide)

theorem useReflection_of_reflecting (h : w.Reflecting) : useReflection w = (.ok (), w) := by
  have hall : ∀ schemas : List Schema,
      (∀ s ∈ schemas, ∃ first, w.types.classIndex? s.cls = some first) →
      (schemas.forM fun s => do let _ ← touch (κ := κ) s.cls) w = (.ok (), w) := by
    intro schemas hknown
    induction schemas with
    | nil => rfl
    | cons s schemas ih =>
        obtain ⟨⟨first, hfirst⟩, hknown⟩ := List.forall_mem_cons.mp hknown
        have hstep : (do let _ ← touch (κ := κ) s.cls) w = (.ok (), w) := by
          rw [run_bind_of_ok (touch_of_classIndex? hfirst)]
          rfl
        rw [List.forM, run_bind_of_ok hstep]
        exact ih hknown
  exact hall _ h

theorem travel_of_answered {r : Ref} (h : ∀ id, r = some id → w.Answered id travelClasses)
    (moved : Bool) : travel r moved w = (.ok (w.classifyRef r moved), w) := by
  cases r with
  | none => rfl
  | some id =>
      rw [travel, run_bind_of_ok (askClasses_of_answered (h id rfl))]
      rfl

theorem askKey_of_answered {r : Ref} (h : ∀ id, r = some id → w.Answered id [.string]) :
    askKey r w = (.ok (), w) := by
  cases r with
  | none => rfl
  | some id => exact askClasses_of_answered (h id rfl)

end Run

end ObjectRuntime
