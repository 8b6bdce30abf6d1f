import ObjectRuntime.Proofs.Object.Advancing
import ObjectRuntime.Proofs.Reflection.Making
import ObjectRuntime.Reflection.Load
set_option autoImplicit false

/-!
# Parts of loading that follow no references

Most of what loading does is not about nodes: it converts texts, makes objects and looks classes up.
Such a part leaves alone what is known of the nodes, whether or not it fails.
-/

namespace ObjectRuntime

variable {κ α β : Type}

namespace Build

/-- Lookups of classes, of whatever kind. -/
abbrev Moved (w w' : World κ) : Prop := w.Advanced (fun _ => True) w'

theorem covers_all : ObjectClass.Covers fun _ => True := ⟨fun _ _ => trivial, trivial⟩

theorem within_all : ∀ t : RefType, t.Within fun _ => True
  | .named _ _ => trivial
  | .array elem => within_all elem
  | .map key value => ⟨within_all key, within_all value⟩

theorem type_within_all : ∀ t : ValueType, t.Within fun _ => True
  | .ref r => within_all r
  | .option t => type_within_all t
  | .variant a b => ⟨type_within_all a, type_within_all b⟩
  | .int _ | .f32 | .f64 | .bool | .text | .bytes | .dataType | .device | .rawDevice | .handle
  | .tensorHandle | .unit | .any => trivial

/-- The operation leaves alone what is known of nodes. -/
structure Aside (x : Build κ α) : Prop where
  path : ∀ s w, (x s w).1.2.path = s.path
  finished : ∀ s w, (x s w).1.2.finished = s.finished
  moved : ∀ s w, Moved w (x s w).2

theorem aside_pure (a : α) : Aside (pure a : Build κ α) :=
  ⟨fun _ _ => rfl, fun _ _ => rfl, fun _ w => .refl _ w⟩

theorem aside_fail (cause : Error) : Aside (fail cause : Build κ α) :=
  ⟨fun _ _ => rfl, fun _ _ => rfl, fun _ w => .refl _ w⟩

theorem aside_hold (ids : List ObjId) : Aside (hold ids : Build κ Unit) :=
  ⟨fun _ _ => rfl, fun _ _ => rfl, fun _ w => .refl _ w⟩

theorem aside_ofRun {x : Run κ α} (hx : Run.Advances (fun _ => True) x) : Aside (ofRun x) :=
  ⟨fun _ _ => rfl, fun _ _ => rfl, fun _ w => hx w⟩

theorem aside_world : Aside (world : Build κ (World κ)) :=
  aside_ofRun (Run.advances_get fun w => Run.advances_pure w)

theorem Aside.bind {x : Build κ α} {f : α → Build κ β} (hx : Aside x) (hf : ∀ a, Aside (f a)) :
    Aside (x >>= f) := by
  have hboth : ∀ s w, ((x >>= f) s w).1.2.path = s.path ∧
      ((x >>= f) s w).1.2.finished = s.finished ∧ Moved w ((x >>= f) s w).2 := by
    intro s w
    have hpath := hx.path s w
    have hfinished := hx.finished s w
    have hmoved := hx.moved s w
    rcases hrun : x s w with ⟨⟨fault | a, s₁⟩, w₁⟩
    all_goals rw [hrun] at hpath hfinished hmoved
    · rw [bind_of_error hrun]
      exact ⟨hpath, hfinished, hmoved⟩
    · rw [bind_of_ok hrun]
      exact ⟨((hf a).path s₁ w₁).trans hpath, ((hf a).finished s₁ w₁).trans hfinished,
        hmoved.trans ((hf a).moved s₁ w₁)⟩
  exact ⟨fun s w => (hboth s w).1, fun s w => (hboth s w).2.1, fun s w => (hboth s w).2.2⟩

theorem ofRun_eq_ok {x : Run κ α} {s s' : BuildState} {w w' : World κ} {a : α} :
    ofRun x s w = ((.ok a, s'), w') ↔ x w = (.ok a, w') ∧ s' = s := by
  rcases hrun : x w with ⟨answer, w₁⟩
  simp only [ofRun, hrun]
  constructor
  · intro h
    cases h
    exact ⟨rfl, rfl⟩
  · rintro ⟨h, rfl⟩
    cases h
    rfl

theorem aside_holding {x : Run κ Ref} (hx : Run.Advances (fun _ => True) x) : Aside (holding x) :=
  (aside_ofRun hx).bind fun _ => (aside_hold _).bind fun _ => aside_pure _

theorem aside_make (cls : ObjectClass) (payload : Payload κ) : Aside (make cls payload) := by
  refine aside_holding ((Run.advances_modifyHeap _).bind fun _ => ?_)
  exact (Run.advances_create trivial payload).bind fun id => Run.advances_pure _

theorem aside_fieldOf (t : ValueType) (v : Value) : Aside (fieldOf t v : Build κ Value) := by
  refine (aside_ofRun (Run.advances_decode covers_all (type_within_all t) v)).bind fun x => ?_
  exact (aside_hold _).bind fun _ => aside_pure _

end Build

namespace Loading

open Build (Aside aside_pure aside_fail aside_hold aside_ofRun aside_make covers_all)

theorem aside_required (index : Nat) (field : String) (part : Option String) :
    Aside (required index field part : Build κ String) := by
  cases part with
  | some s => exact aside_pure s
  | none => exact aside_fail _

theorem aside_map (entries : List (Ref × Ref)) : Aside (map entries : Build κ Ref) :=
  Build.aside_world.bind fun _ => aside_make _ _

theorem aside_firstAccepted (t : ValueType) :
    ∀ candidates : List Value, Aside (firstAccepted t candidates : Build κ Value)
  | [] => aside_pure _
  | [v] => Build.aside_fieldOf t v
  | v :: v' :: rest => by
      have hdecode := Run.advances_decode (κ := κ) covers_all (Build.type_within_all t) v
      refine (aside_ofRun hdecode.attempt).bind fun answer => ?_
      cases answer with
      | ok x => exact (aside_hold _).bind fun _ => aside_pure _
      | error cause => exact aside_firstAccepted t (v' :: rest)

end Loading

end ObjectRuntime
