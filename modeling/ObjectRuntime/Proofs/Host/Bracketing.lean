import ObjectRuntime.Host
import Mathlib.Tactic.Common
set_option autoImplicit false

/-!
# Brackets of host calls

The calls that a program makes to its host form brackets: a lock is given back with the state with
which it was taken, and the innermost one first (`Host.Nested`).  `HostRun.step` is one use of the
host by a program that keeps its guards on a stack; `HostRun.Orderly` is what every step keeps, and
`HostRun.Onward` says how calls and registrations grow.  The entry points may be registered in any
order and at any time, and nothing is assumed of the functions of the host.
-/

namespace ObjectRuntime

variable {π σ : Type}

/-- The entry point is one of the two of the lock. -/
def HostSymbol.IsLock (s : HostSymbol) : Prop := s = .acquireLock ∨ s = .releaseLock

theorem HostSymbol.ofName?_name (s : HostSymbol) : ofName? s.name = some s := by
  cases s <;> decide

namespace Host

/-! ## Logs of calls, the latest first -/

/-- The states of the locks that calls leave held, the innermost first. -/
def heldAfter : List (HostCall π) → List Int
  | [] => []
  | c :: past =>
    match c.symbol with
    | .acquireLock => c.answer :: heldAfter past
    | .releaseLock => (heldAfter past).tail
    | _ => heldAfter past

/-- Whenever a lock was given back it was the innermost one held, and was given back with the state
with which it had been taken. -/
def Nested : List (HostCall π) → Prop
  | [] => True
  | c :: past => Nested past ∧ (c.symbol = .releaseLock → (heldAfter past).head? = some c.argument)

/-- Of the calls that were made after others, all but those of the lock itself were made while it was
held. -/
def Locked : List (HostCall π) → List (HostCall π) → Prop
  | [], _ => True
  | c :: new, past => Locked new past ∧ (¬ c.symbol.IsLock → heldAfter (new ++ past) ≠ [])

/-- How often calls were made for an entry point. -/
def callsOf (s : HostSymbol) (calls : List (HostCall π)) : Nat := calls.countP (·.symbol == s)

variable {c : HostCall π} {past new more : List (HostCall π)}

theorem heldAfter_of_acquire (hc : c.symbol = .acquireLock) :
    heldAfter (c :: past) = c.answer :: heldAfter past := by
  rw [heldAfter, hc]

theorem heldAfter_of_release (hc : c.symbol = .releaseLock) :
    heldAfter (c :: past) = (heldAfter past).tail := by
  rw [heldAfter, hc]

theorem heldAfter_of_other (hc : ¬ c.symbol.IsLock) : heldAfter (c :: past) = heldAfter past := by
  unfold HostSymbol.IsLock at hc
  rw [heldAfter]
  cases hsymbol : c.symbol with
  | acquireLock => exact absurd (.inl hsymbol) hc
  | releaseLock => exact absurd (.inr hsymbol) hc
  | checkSignals | addReference | dropReference => rfl

theorem Locked.append (hmore : Locked more (new ++ past)) (hnew : Locked new past) :
    Locked (more ++ new) past := by
  induction more with
  | nil => exact hnew
  | cons c more ih =>
      obtain ⟨hrest, hc⟩ := hmore
      refine ⟨ih hrest, fun hother => ?_⟩
      rw [List.append_eq, List.append_assoc]
      exact hc hother

/-- In nested calls the lock was taken as often as it was given back, and once more for each lock that
is held. -/
theorem callsOf_acquire (h : Nested past) :
    callsOf .acquireLock past = callsOf .releaseLock past + (heldAfter past).length := by
  induction past with
  | nil => rfl
  | cons c past ih =>
      have ih := ih h.1
      unfold callsOf at ih ⊢
      simp only [List.countP_cons]
      by_cases hacquire : c.symbol = .acquireLock
      · rw [heldAfter_of_acquire hacquire]
        simp [hacquire]
        omega
      · by_cases hrelease : c.symbol = .releaseLock
        · have hhead := h.2 hrelease
          rw [heldAfter_of_release hrelease]
          cases hheld : heldAfter past with
          | nil => simp [hheld] at hhead
          | cons state rest =>
              rw [hheld] at ih
              simp [hrelease] at ih ⊢
              omega
        · have hother : ¬ c.symbol.IsLock := by
            intro hlock
            cases hlock with
            | inl h => exact hacquire h
            | inr h => exact hrelease h
          rw [heldAfter_of_other hother]
          simp [hacquire, hrelease]
          omega

/-! ## Registration -/

section

variable [DecidableEq π] {h h' : Host π σ} {name : String} {callback : Option π} {s : HostSymbol}
  {known : π}

/-- An entry point is refused if it is null, unknown, or registered as another one. -/
theorem register_eq_error_iff :
    (∃ cause, h.register name callback = .error cause) ↔
      callback = none ∨ HostSymbol.ofName? name = none ∨
        ∃ s known, HostSymbol.ofName? name = some s ∧ h.symbols.lookup s = some known ∧
          callback ≠ some known := by
  unfold register
  cases callback with
  | none => simp
  | some c =>
      cases hname : HostSymbol.ofName? name with
      | none => simp
      | some s =>
          cases hknown : h.symbols.lookup s with
          | none => simp [hknown]
          | some known =>
              by_cases heq : known = c
              · simp [hknown, heq]
              · simp [hknown, heq, Ne.symm heq]

/-- What is registered stays as it is. -/
theorem register_keeps (hregister : h.register name callback = .ok h')
    (hknown : h.symbols.lookup s = some known) : h'.symbols.lookup s = some known := by
  unfold register at hregister
  cases callback with
  | none => cases hregister
  | some c =>
      cases hname : HostSymbol.ofName? name with
      | none => simp [hname] at hregister
      | some s' =>
          simp only [hname] at hregister
          cases hlookup : h.symbols.lookup s' with
          | none =>
              simp only [hlookup] at hregister
              cases hregister
              have hne : s ≠ s' := by
                intro heq
                rw [heq, hlookup] at hknown
                cases hknown
              simpa [List.lookup_cons, beq_false_of_ne hne] using hknown
          | some known' =>
              simp only [hlookup] at hregister
              split at hregister
              · cases hregister
                exact hknown
              · cases hregister

/-- Nothing is called when an entry point is registered. -/
theorem register_calls (hregister : h.register name callback = .ok h') : h'.calls = h.calls := by
  unfold register at hregister
  split at hregister
  · cases hregister
  · split at hregister
    · cases hregister
    · split at hregister
      · cases hregister
        rfl
      · split at hregister
        · cases hregister
          rfl
        · cases hregister

end

/-! ## Effects of calls -/

/-- Both functions of the lock are registered. -/
def HasLock (h : Host π σ) : Prop :=
  (h.symbols.lookup .acquireLock).isSome ∧ (h.symbols.lookup .releaseLock).isSome

/-- What an operation may do: it registers nothing, keeps calls nested and leaves the lock held as it
was.  The function called for an entry point is the registered one, and the lock is only called if
both of its functions are there; then it is held during all other calls. -/
structure Bracketed (h h' : Host π σ) (held : List Int) : Prop where
  symbols : h'.symbols = h.symbols
  nested : Nested h.calls → Nested h'.calls
  held : heldAfter h'.calls = held
  grown : ∃ new, h'.calls = new ++ h.calls ∧ (h.HasLock → Locked new h.calls) ∧
    ∀ c ∈ new, h.symbols.lookup c.symbol = some c.callback ∧ (c.symbol.IsLock → h.HasLock)

theorem Bracketed.refl (h : Host π σ) : Bracketed h h (heldAfter h.calls) :=
  ⟨rfl, id, rfl, [], rfl, fun _ => trivial, fun _ hc => nomatch hc⟩

theorem Bracketed.trans {h₀ h₁ h₂ : Host π σ} {held held' : List Int}
    (h : Bracketed h₀ h₁ held) (h' : Bracketed h₁ h₂ held') : Bracketed h₀ h₂ held' := by
  obtain ⟨new, hnew, hlocked, hcalled⟩ := h.grown
  obtain ⟨more, hmore, hlocked', hcalled'⟩ := h'.grown
  have hsame : h₁.HasLock ↔ h₀.HasLock := by
    unfold HasLock
    rw [h.symbols]
  rw [h.symbols] at hcalled'
  rw [hsame] at hlocked'
  refine ⟨h'.symbols.trans h.symbols, fun hnested => h'.nested (h.nested hnested), h'.held,
    more ++ new, ?_, ?_, ?_⟩
  · rw [hmore, hnew, List.append_assoc]
  · intro hboth
    have hrest := hlocked' hboth
    rw [hnew] at hrest
    exact hrest.append (hlocked hboth)
  · intro c hc
    cases List.mem_append.mp hc with
    | inl hc =>
        obtain ⟨hknown, hpaired⟩ := hcalled' c hc
        exact ⟨hknown, fun hc => hsame.mp (hpaired hc)⟩
    | inr hc => exact hcalled c hc

/-! ## Calls -/

variable [HostFunctions π σ] {h : Host π σ} {s : HostSymbol} {f : π}

theorem call_calls (h : Host π σ) (s : HostSymbol) (f : π) (argument : Int) :
    (h.call s f argument).1.calls = ⟨s, f, argument, (h.call s f argument).2⟩ :: h.calls := rfl

/-- The lock is taken if both of its functions are there; otherwise nothing happens. -/
theorem lock_cases (h : Host π σ) :
    (¬ h.HasLock ∧ h.lock = (h, none)) ∨
    ∃ taker giver, h.symbols.lookup .acquireLock = some taker ∧
      h.symbols.lookup .releaseLock = some giver ∧
      h.lock = ((h.call .acquireLock taker 0).1, some (giver, (h.call .acquireLock taker 0).2)) := by
  unfold lock HasLock
  cases htaker : h.symbols.lookup .acquireLock with
  | none => exact .inl ⟨by simp, rfl⟩
  | some taker =>
      cases hgiver : h.symbols.lookup .releaseLock with
      | none => exact .inl ⟨by simp, rfl⟩
      | some giver => exact .inr ⟨taker, giver, rfl, rfl, rfl⟩

/-- Taking the lock leaves it held with the state that was returned. -/
theorem bracketed_lock (h : Host π σ) :
    Bracketed h h.lock.1 ((h.lock.2.map Prod.snd).toList ++ heldAfter h.calls) := by
  obtain ⟨-, hlock⟩ | ⟨taker, giver, htaker, hgiver, hlock⟩ := lock_cases h
  · rw [hlock]
    exact .refl h
  · have hboth : h.HasLock := ⟨by rw [htaker]; rfl, by rw [hgiver]; rfl⟩
    rw [hlock]
    refine ⟨rfl, ?_, ?_, [_], rfl, fun _ => ⟨trivial, fun hc => absurd (.inl rfl) hc⟩, ?_⟩
    · intro hnested
      exact ⟨hnested, fun hc => nomatch hc⟩
    · rw [call_calls, heldAfter_of_acquire rfl]
      rfl
    · intro c hc
      obtain rfl := List.mem_singleton.mp hc
      exact ⟨htaker, fun _ => hboth⟩

/-- A lock is given back if it is the innermost one held. -/
theorem bracketed_unlock {giver : π} {state : Int} {held : List Int}
    (hgiver : h.symbols.lookup .releaseLock = some giver)
    (htaker : (h.symbols.lookup .acquireLock).isSome)
    (hheld : heldAfter h.calls = state :: held) :
    Bracketed h (h.unlock (some (giver, state))) held := by
  have hboth : h.HasLock := ⟨htaker, by rw [hgiver]; rfl⟩
  refine ⟨rfl, ?_, ?_, [_], rfl, fun _ => ⟨trivial, fun hc => absurd (.inr rfl) hc⟩, ?_⟩
  · intro hnested
    refine ⟨hnested, fun _ => ?_⟩
    rw [hheld]
    rfl
  · unfold unlock
    rw [call_calls, heldAfter_of_release rfl, hheld]
    rfl
  · intro c hc
    obtain rfl := List.mem_singleton.mp hc
    exact ⟨hgiver, fun _ => hboth⟩

/-- A function other than those of the lock may be called while the lock is held, or if there is no
lock. -/
theorem bracketed_call (hs : ¬ s.IsLock) (hf : h.symbols.lookup s = some f)
    (hheld : h.HasLock → heldAfter h.calls ≠ []) (argument : Int) :
    Bracketed h (h.call s f argument).1 (heldAfter h.calls) := by
  refine ⟨rfl, ?_, heldAfter_of_other hs, [_], rfl, fun hlock => ⟨trivial, fun _ => hheld hlock⟩, ?_⟩
  · intro hnested
    exact ⟨hnested, fun hc => absurd (.inr hc) hs⟩
  · intro c hc
    obtain rfl := List.mem_singleton.mp hc
    exact ⟨hf, fun hc => absurd hc hs⟩

/-- Another function is called with the lock held, if there is a lock. -/
theorem bracketed_callLocked (hs : ¬ s.IsLock) (hf : h.symbols.lookup s = some f) :
    Bracketed h (h.callLocked s f).1 (heldAfter h.calls) := by
  have htaken := bracketed_lock h
  obtain ⟨hnone, hlock⟩ | ⟨taker, giver, htaker, hgiver, hlock⟩ := lock_cases h
  · have hcalled : (h.callLocked s f).1 = (h.call s f 0).1 := by
      unfold callLocked
      rw [hlock]
      rfl
    rw [hcalled]
    exact bracketed_call hs hf (fun hboth => absurd hboth hnone) 0
  · rw [hlock] at htaken
    have hheld : heldAfter (h.call .acquireLock taker 0).1.calls ≠ [] := by
      rw [htaken.held]
      exact List.cons_ne_nil _ _
    have hmade := bracketed_call (h := (h.call .acquireLock taker 0).1) hs hf (fun _ => hheld) 0
    have hgiven := bracketed_unlock (h := ((h.call .acquireLock taker 0).1.call s f 0).1) hgiver
      (by rw [Option.isSome_iff_exists]; exact ⟨taker, htaker⟩) (hmade.held.trans htaken.held)
    unfold callLocked
    rw [hlock]
    exact (htaken.trans hmade).trans hgiven

/-- So is a registered entry point; one that is not registered is not called. -/
theorem bracketed_callSymbol (h : Host π σ) (hs : ¬ s.IsLock) :
    Bracketed h (h.callSymbol s).1 (heldAfter h.calls) := by
  unfold callSymbol
  cases hf : h.symbols.lookup s with
  | none => exact .refl h
  | some f => exact bracketed_callLocked hs hf

theorem bracketed_checkSignals (h : Host π σ) :
    Bracketed h h.checkSignals.1 (heldAfter h.calls) :=
  bracketed_callSymbol h (by unfold HostSymbol.IsLock; decide)

theorem bracketed_countReference (h : Host π σ) (hs : ¬ s.IsLock) (isNull : Bool) :
    Bracketed h (h.countReference s isNull) (heldAfter h.calls) := by
  unfold countReference
  cases isNull with
  | true => exact .refl h
  | false => exact bracketed_callSymbol h hs

end Host

/-! ## Programs and their hosts -/

/-- One use that a program makes of its host.  In between the host may change by itself, as when a
signal arrives. -/
inductive HostUse (π σ : Type) where
  | register (name : String) (callback : Option π)
  | checkSignals
  | addReference (isNull : Bool)
  | dropReference (isNull : Bool)
  | acquire
  | drop
  | elsewhere (state : σ)

/-- The host of a program, and the guards that it keeps, the innermost first. -/
structure HostRun (π σ : Type) where
  host : Host π σ
  guards : List (LockGuard π)

namespace HostRun

open Host

/-- A program that has not used its host. -/
def start (state : σ) : HostRun π σ := ⟨.initial state, []⟩

/-- The states of the locks that the guards hold, the innermost first. -/
def heldBy (r : HostRun π σ) : List Int := r.guards.filterMap fun guard => guard.map Prod.snd

/-- What holds between two uses: calls are nested, the lock is held by the guards and by nothing else,
and every call was one of a registered function. -/
structure Orderly (r : HostRun π σ) : Prop where
  nested : Nested r.host.calls
  held : heldAfter r.host.calls = r.heldBy
  called : ∀ c ∈ r.host.calls, r.host.symbols.lookup c.symbol = some c.callback ∧
    (c.symbol.IsLock → r.host.HasLock)
  givers : ∀ giver state, some (giver, state) ∈ r.guards →
    r.host.symbols.lookup .releaseLock = some giver ∧
      (r.host.symbols.lookup .acquireLock).isSome

/-- What has been registered stays, and calls are only added: with the lock held, if there is one. -/
structure Onward (r r' : HostRun π σ) : Prop where
  keeps : ∀ s known, r.host.symbols.lookup s = some known →
    r'.host.symbols.lookup s = some known
  grown : ∃ new, r'.host.calls = new ++ r.host.calls ∧
    (r.host.HasLock → Locked new r.host.calls)

variable {r r' r'' : HostRun π σ}

theorem Onward.refl (r : HostRun π σ) : Onward r r :=
  ⟨fun _ _ h => h, [], rfl, fun _ => trivial⟩

theorem isSome_of_keeps {h h' : Host π σ} {s : HostSymbol}
    (hkeeps : ∀ s known, h.symbols.lookup s = some known → h'.symbols.lookup s = some known)
    (hs : (h.symbols.lookup s).isSome) : (h'.symbols.lookup s).isSome := by
  obtain ⟨known, hknown⟩ := Option.isSome_iff_exists.mp hs
  rw [hkeeps s known hknown]
  rfl

theorem Onward.hasLock (h : Onward r r') (hlock : r.host.HasLock) : r'.host.HasLock :=
  ⟨isSome_of_keeps h.keeps hlock.1, isSome_of_keeps h.keeps hlock.2⟩

theorem Onward.trans (h : Onward r r') (h' : Onward r' r'') : Onward r r'' := by
  obtain ⟨new, hnew, hlocked⟩ := h.grown
  obtain ⟨more, hmore, hlocked'⟩ := h'.grown
  refine ⟨fun s known hknown => h'.keeps s known (h.keeps s known hknown), more ++ new, ?_, ?_⟩
  · rw [hmore, hnew, List.append_assoc]
  · intro hboth
    have hrest := hlocked' (h.hasLock hboth)
    rw [hnew] at hrest
    exact hrest.append (hlocked hboth)

theorem orderly_start (state : σ) : (start state : HostRun π σ).Orderly :=
  ⟨trivial, rfl, fun _ hc => (nomatch hc), fun _ _ hguard => (nomatch hguard)⟩

/-- An operation between brackets keeps what holds between two uses. -/
theorem Orderly.bracketed {host : Host π σ} {guards : List (LockGuard π)} (hr : r.Orderly)
    (hb : Bracketed r.host host (heldBy ⟨host, guards⟩))
    (hgivers : ∀ giver state, some (giver, state) ∈ guards →
      r.host.symbols.lookup .releaseLock = some giver ∧
        (r.host.symbols.lookup .acquireLock).isSome) :
    Orderly ⟨host, guards⟩ ∧ Onward r ⟨host, guards⟩ := by
  obtain ⟨new, hnew, hlocked, hcalled⟩ := hb.grown
  refine ⟨⟨hb.nested hr.nested, hb.held, ?_, ?_⟩, ?_, new, hnew, hlocked⟩
  · intro c hc
    simp only [hnew] at hc
    unfold HasLock
    simp only [hb.symbols]
    cases List.mem_append.mp hc with
    | inl hc => exact hcalled c hc
    | inr hc => exact hr.called c hc
  · simp only [hb.symbols]
    exact hgivers
  · intro s known hknown
    rw [hb.symbols]
    exact hknown

/-! ## One step -/

variable [DecidableEq π]

/-- A registration keeps what holds between two uses. -/
theorem Orderly.registered {name : String} {callback : Option π} {host : Host π σ}
    (hr : r.Orderly) (hregister : r.host.register name callback = .ok host) :
    Orderly { r with host } ∧ Onward r { r with host } := by
  have hcalls := register_calls hregister
  have hkeeps : ∀ s known, r.host.symbols.lookup s = some known →
      host.symbols.lookup s = some known := fun s known => register_keeps hregister
  have hlock : r.host.HasLock → host.HasLock :=
    fun h => ⟨isSome_of_keeps hkeeps h.1, isSome_of_keeps hkeeps h.2⟩
  refine ⟨⟨?_, ?_, ?_, ?_⟩, hkeeps, [], hcalls, fun _ => trivial⟩
  · rw [hcalls]
    exact hr.nested
  · rw [hcalls]
    exact hr.held
  · intro c hc
    rw [hcalls] at hc
    obtain ⟨hknown, hpaired⟩ := hr.called c hc
    exact ⟨hkeeps _ _ hknown, fun hc => hlock (hpaired hc)⟩
  · intro giver state hguard
    obtain ⟨hgiver, htaker⟩ := hr.givers giver state hguard
    exact ⟨hkeeps _ _ hgiver, isSome_of_keeps hkeeps htaker⟩

variable [HostFunctions π σ]

/-- Uses the host.  The guard that was taken last is dropped first. -/
def step (r : HostRun π σ) : HostUse π σ → HostRun π σ
  | .register name callback =>
    match r.host.register name callback with
    | .ok host => { r with host }
    | .error _ => r
  | .checkSignals => { r with host := r.host.checkSignals.1 }
  | .addReference isNull => { r with host := r.host.countReference .addReference isNull }
  | .dropReference isNull => { r with host := r.host.countReference .dropReference isNull }
  | .acquire => ⟨r.host.lock.1, r.host.lock.2 :: r.guards⟩
  | .drop =>
    match r.guards with
    | [] => r
    | guard :: rest => ⟨r.host.unlock guard, rest⟩
  | .elsewhere state => { r with host := { r.host with state } }

/-- Uses the host again and again. -/
def run (r : HostRun π σ) (uses : List (HostUse π σ)) : HostRun π σ := uses.foldl step r

theorem step_register_of_ok {name : String} {callback : Option π} {host : Host π σ}
    (h : r.host.register name callback = .ok host) :
    r.step (.register name callback) = { r with host } := by
  simp only [HostRun.step, h]

/-- An entry point that is refused changes nothing. -/
theorem step_register_of_error {name : String} {callback : Option π}
    (h : ∃ cause, r.host.register name callback = .error cause) :
    r.step (.register name callback) = r := by
  obtain ⟨cause, hcause⟩ := h
  simp only [HostRun.step, hcause]

/-- A guard that is taken holds the lock, if there is one. -/
theorem Orderly.acquired (hr : r.Orderly) :
    Orderly (r.step .acquire) ∧ Onward r (r.step .acquire) := by
  refine hr.bracketed ?_ ?_
  · have hheld : heldBy ⟨r.host.lock.1, r.host.lock.2 :: r.guards⟩ =
        (r.host.lock.2.map Prod.snd).toList ++ heldAfter r.host.calls := by
      rw [hr.held]
      unfold heldBy
      cases hguard : r.host.lock.2 <;> simp
    rw [hheld]
    exact bracketed_lock r.host
  · intro giver state hguard
    cases List.mem_cons.mp hguard with
    | inr hguard => exact hr.givers giver state hguard
    | inl hguard =>
        obtain ⟨-, hlock⟩ | ⟨taker, giver', htaker, hgiver, hlock⟩ := lock_cases r.host
        · rw [hlock] at hguard
          cases hguard
        · rw [hlock] at hguard
          cases hguard
          exact ⟨hgiver, by rw [htaker]; rfl⟩

/-- The guard that is dropped gives the lock back with the state with which it was taken. -/
theorem Orderly.dropped (hr : r.Orderly) :
    Orderly (r.step .drop) ∧ Onward r (r.step .drop) := by
  unfold step
  cases hguards : r.guards with
  | nil => exact ⟨hr, .refl r⟩
  | cons guard rest =>
      have hgivers : ∀ giver state, some (giver, state) ∈ rest →
          r.host.symbols.lookup .releaseLock = some giver ∧
            (r.host.symbols.lookup .acquireLock).isSome := by
        intro giver state hguard
        refine hr.givers giver state ?_
        rw [hguards]
        exact List.mem_cons_of_mem _ hguard
      have hheld := hr.held
      unfold heldBy at hheld
      rw [hguards] at hheld
      cases guard with
      | none =>
          refine hr.bracketed ?_ hgivers
          rw [show heldBy ⟨r.host.unlock none, rest⟩ = heldAfter r.host.calls from hheld.symm]
          exact .refl r.host
      | some taken =>
          obtain ⟨giver, state⟩ := taken
          obtain ⟨hgiver, htaker⟩ := hr.givers giver state (by rw [hguards]; exact List.mem_cons_self)
          exact hr.bracketed (bracketed_unlock hgiver htaker hheld) hgivers

/-- Every use keeps what holds between two uses. -/
theorem Orderly.step (hr : r.Orderly) (u : HostUse π σ) :
    Orderly (r.step u) ∧ Onward r (r.step u) := by
  have hother : ∀ host : Host π σ, Bracketed r.host host (heldAfter r.host.calls) →
      Orderly { r with host } ∧ Onward r { r with host } := by
    intro host hb
    refine hr.bracketed ?_ hr.givers
    rw [hr.held] at hb
    exact hb
  cases u with
  | register name callback =>
      cases hregister : r.host.register name callback with
      | error cause =>
          rw [step_register_of_error ⟨cause, hregister⟩]
          exact ⟨hr, .refl r⟩
      | ok host =>
          rw [step_register_of_ok hregister]
          exact hr.registered hregister
  | checkSignals => exact hother _ (bracketed_checkSignals r.host)
  | addReference isNull =>
      exact hother _ (bracketed_countReference r.host (by unfold HostSymbol.IsLock; decide) isNull)
  | dropReference isNull =>
      exact hother _ (bracketed_countReference r.host (by unfold HostSymbol.IsLock; decide) isNull)
  | acquire => exact hr.acquired
  | drop => exact hr.dropped
  | elsewhere state =>
      exact ⟨⟨hr.nested, hr.held, hr.called, hr.givers⟩, fun _ _ hknown => hknown, [], rfl,
        fun _ => trivial⟩

/-! ## Whole runs -/

/-- Any number of uses keep it. -/
theorem Orderly.run (hr : r.Orderly) (uses : List (HostUse π σ)) :
    Orderly (r.run uses) ∧ Onward r (r.run uses) := by
  induction uses generalizing r with
  | nil => exact ⟨hr, .refl r⟩
  | cons u uses ih =>
      obtain ⟨hstep, honward⟩ := hr.step u
      obtain ⟨hrest, honward'⟩ := ih hstep
      exact ⟨hrest, honward.trans honward'⟩

/-- A guard that is taken before there is a lock does nothing when it is dropped, and a check that
reports a signal gives the lock back. -/
example :
    let r : HostRun HostCallback Int := (start 0).run
      [.register "PyErr_CheckSignals" (some .check), .register "PyGILState_Ensure" (some .acquire),
        .acquire, .register "PyGILState_Release" (some .release), .acquire, .elsewhere 7,
        .checkSignals, .drop, .drop, .drop]
    r.host.calls.reverse.map (fun c => (c.symbol, c.argument, c.answer)) =
      [(.acquireLock, 0, 1), (.acquireLock, 0, 2), (.checkSignals, 0, 7), (.releaseLock, 2, 0),
        (.releaseLock, 1, 0)] ∧ r.guards = [] := by
  decide +kernel

end HostRun

end ObjectRuntime
