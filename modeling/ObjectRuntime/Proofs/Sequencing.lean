import ObjectRuntime.Error
import Mathlib.Data.List.Forall2
import Mathlib.Tactic.Common
set_option autoImplicit false

/-!
# Taking fallible computations apart

A computation that succeeds has succeeded in each of its steps.  The lemmas here turn the success of
a whole into the success of its parts, so that no proof has to unfold the monad.
-/

namespace ObjectRuntime

variable {ε σ τ α β : Type}

/-- A sequence succeeds if both of its steps do, the second on the result of the first. -/
theorem bind_eq_ok {x : Except ε α} {f : α → Except ε β} {b : β} :
    (x >>= f) = .ok b ↔ ∃ a, x = .ok a ∧ f a = .ok b := by
  rcases x with fault | value
  · exact ⟨(nomatch ·), fun ⟨_, h, _⟩ => (nomatch h)⟩
  · exact ⟨fun h => ⟨value, rfl, h⟩, fun ⟨_, h, hb⟩ => by cases h; exact hb⟩

/-- A computation on each element succeeds if it does so on each of them. -/
theorem mapM_eq_ok {f : α → Except ε β} {as : List α} {bs : List β}
    (h : List.Forall₂ (fun a b => f a = .ok b) as bs) : as.mapM f = .ok bs := by
  induction h with
  | nil => rfl
  | cons hab _ ih =>
      rw [List.mapM_cons, hab, ih]
      rfl

/-- An operation on a state goes on where its first step ended. -/
theorem run_bind_of_ok {x : ExceptT ε (StateM σ) α} {f : α → ExceptT ε (StateM σ) β} {a : α}
    {s s' : σ} (hx : x s = (.ok a, s')) : (x >>= f) s = f a s' := by
  simp only [bind, ExceptT.bind, ExceptT.mk, StateT.bind, hx]
  rfl

theorem run_map_of_ok {x : ExceptT ε (StateM σ) α} {f : α → β} {a : α} {s s' : σ}
    (hx : x s = (.ok a, s')) : (f <$> x) s = (.ok (f a), s') := by
  rw [map_eq_pure_bind, run_bind_of_ok hx]
  rfl

/-- An operation on a state fails where its first step does. -/
theorem run_bind_of_error {x : ExceptT ε (StateM σ) α} {f : α → ExceptT ε (StateM σ) β} {e : ε}
    {s s' : σ} (hx : x s = (.error e, s')) : (x >>= f) s = (.error e, s') := by
  simp only [bind, ExceptT.bind, ExceptT.mk, StateT.bind, hx]
  rfl

/-- An operation does not tell two states apart that its first step does not. -/
theorem run_bind_congr {x : ExceptT ε (StateM σ) α} (f : α → ExceptT ε (StateM σ) β) {s s' : σ}
    (hx : x s = x s') : (x >>= f) s = (x >>= f) s' := by
  simp only [bind, ExceptT.bind, ExceptT.mk, StateT.bind, hx]

/-- Reading the state changes nothing. -/
theorem run_get_bind (f : σ → ExceptT ε (StateM σ) β) (s : σ) :
    ((get : ExceptT ε (StateM σ) σ) >>= f) s = f s s := rfl

/-- An operation whose result is known ends in some state. -/
theorem run_of_toOption {x : ExceptT ε (StateM σ) α} {a : α} {s : σ}
    (h : (x s).1.toOption = some a) : ∃ s', x s = (.ok a, s') := by
  rcases hx : x s with ⟨fault | value, s'⟩
  · simp [hx, Except.toOption] at h
  · obtain rfl : value = a := by simpa [hx, Except.toOption] using h
    exact ⟨s', rfl⟩

/-- An operation on a state succeeds if both of its steps do. -/
theorem run_bind_eq_ok {x : ExceptT ε (StateM σ) α} {f : α → ExceptT ε (StateM σ) β} {b : β}
    {s s'' : σ} :
    (x >>= f) s = (.ok b, s'') ↔ ∃ a s', x s = (.ok a, s') ∧ f a s' = (.ok b, s'') := by
  rcases hx : x s with ⟨fault | a, s'⟩
  · constructor
    · intro h
      simp only [bind, ExceptT.bind, ExceptT.mk, StateT.bind, hx] at h
      cases h
    · rintro ⟨a, s', h, -⟩
      cases h
  · rw [run_bind_of_ok hx]
    constructor
    · exact fun h => ⟨a, s', rfl, h⟩
    · rintro ⟨_, _, h, hf⟩
      cases h
      exact hf

theorem run_map_eq_ok {x : ExceptT ε (StateM σ) α} {f : α → β} {b : β} {s s' : σ} :
    (f <$> x) s = (.ok b, s') ↔ ∃ a, x s = (.ok a, s') ∧ f a = b := by
  rw [map_eq_pure_bind, run_bind_eq_ok]
  constructor
  · rintro ⟨a, _, hx, hf⟩
    cases hf
    exact ⟨a, hx, rfl⟩
  · rintro ⟨a, hx, rfl⟩
    exact ⟨a, s', hx, rfl⟩

/-- An operation on a state that carries another along succeeds if both of its steps do. -/
theorem state_bind_eq_ok {x : StateT τ (ExceptT ε (StateM σ)) α}
    {f : α → StateT τ (ExceptT ε (StateM σ)) β} {p : τ} {r : β × τ} {s s'' : σ} :
    (x >>= f) p s = (.ok r, s'') ↔
      ∃ a p' s', x p s = (.ok (a, p'), s') ∧ f a p' s' = (.ok r, s'') := by
  have h : (x >>= f) p s = (x p >>= fun r => f r.1 r.2) s := rfl
  rw [h, run_bind_eq_ok]
  constructor
  · rintro ⟨⟨a, p'⟩, s', hx, hf⟩
    exact ⟨a, p', s', hx, hf⟩
  · rintro ⟨a, p', s', hx, hf⟩
    exact ⟨(a, p'), s', hx, hf⟩

/-- Exact arithmetic succeeds if the exact result is in range. -/
theorem checkedOp_add_eq_ok {k : IntKind} {a b n : Int} :
    checkedOp k .add a b = .ok n ↔ k.Fits (a + b) ∧ n = a + b := by
  simp only [checkedOp]
  by_cases h : k.Fits (a + b)
  · simp [h, eq_comm]
  · simp [h]

end ObjectRuntime
