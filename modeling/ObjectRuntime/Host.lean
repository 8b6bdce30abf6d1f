import ObjectRuntime.Error
set_option autoImplicit false

/-!
# Callbacks of a host language

A host registers up to five entry points: a check for pending signals, the two functions of its
lock, and the two functions that count references to its own objects.  An operation whose entry
point is missing does nothing.  The lock is held around every other call, if both of its functions
are there.  The calls made are kept, the latest first.

A host is anything that offers functions: `HostFunctions π σ` says what those known as `π` do to a
state of type `σ`.  A `CountingHost` is one whose functions do nothing but count, and all of its
counters are read off the calls.
-/

namespace ObjectRuntime

/-- The entry points a host may register. -/
inductive HostSymbol where
  | checkSignals | acquireLock | releaseLock | addReference | dropReference
  deriving DecidableEq, Repr

/-- The name under which an entry point is registered. -/
def HostSymbol.name : HostSymbol → String
  | .checkSignals => "PyErr_CheckSignals"
  | .acquireLock => "PyGILState_Ensure"
  | .releaseLock => "PyGILState_Release"
  | .addReference => "Py_IncRef"
  | .dropReference => "Py_DecRef"

/-- The entry point with a name. -/
def HostSymbol.ofName? (name : String) : Option HostSymbol :=
  [checkSignals, acquireLock, releaseLock, addReference, dropReference].find? fun s =>
    s.name == name

/-- A call of a host function: the entry point for which it was made, what was passed and what was
returned.  The lock returns a state when it is taken, and is given back with it. -/
structure HostCall (π : Type) where
  symbol : HostSymbol
  callback : π
  argument : Int
  answer : Int
  deriving DecidableEq, Repr

/-- The functions that a host offers.  What one returns, and what becomes of the state of the host,
may depend on all calls made so far. -/
class HostFunctions (π : Type) (σ : outParam Type) where
  answer : List (HostCall π) → π → Int → σ → Int × σ

/-- The registered entry points, the calls made so far and the state of the host. -/
structure Host (π σ : Type) where
  symbols : List (HostSymbol × π)
  calls : List (HostCall π)
  state : σ
  deriving Repr

/-- A lock that is held, and the function and state that release it; nothing if the host has no
lock. -/
abbrev LockGuard (π : Type) := Option (π × Int)

namespace Host

variable {π σ : Type}

/-- A host that has registered nothing. -/
def initial (state : σ) : Host π σ := ⟨[], [], state⟩

/-! ## Registration -/

/-- Registers an entry point.  One that is registered can only be registered again as it is. -/
def register [DecidableEq π] (h : Host π σ) (name : String) (callback : Option π) :
    Except Error (Host π σ) :=
  match callback with
  | none => .error (.nullHandle name)
  | some callback =>
    match HostSymbol.ofName? name with
    | none => .error (.hostSymbolUnknown name)
    | some symbol =>
      match h.symbols.lookup symbol with
      | none => .ok { h with symbols := (symbol, callback) :: h.symbols }
      | some known => if known = callback then .ok h else .error (.hostSymbolTaken name)

/-! ## Calls -/

variable [HostFunctions π σ]

/-- Calls a host function. -/
def call (h : Host π σ) (symbol : HostSymbol) (c : π) (argument : Int) : Host π σ × Int :=
  let (answer, state) := HostFunctions.answer h.calls c argument h.state
  (⟨h.symbols, ⟨symbol, c, argument, answer⟩ :: h.calls, state⟩, answer)

/-- Takes the lock, if both of its functions are registered. -/
def lock (h : Host π σ) : Host π σ × LockGuard π :=
  match h.symbols.lookup .acquireLock, h.symbols.lookup .releaseLock with
  | some taker, some giver =>
    let (h, state) := h.call .acquireLock taker 0
    (h, some (giver, state))
  | _, _ => (h, none)

/-- Gives the lock back with the state it returned. -/
def unlock (h : Host π σ) : LockGuard π → Host π σ
  | some (giver, state) => (h.call .releaseLock giver state).1
  | none => h

/-- Calls a host function with the lock held. -/
def callLocked (h : Host π σ) (symbol : HostSymbol) (c : π) : Host π σ × Int :=
  let (h, guard) := h.lock
  let (h, answer) := h.call symbol c 0
  (h.unlock guard, answer)

/-- Calls a registered entry point with the lock held. -/
def callSymbol (h : Host π σ) (symbol : HostSymbol) : Host π σ × Int :=
  match h.symbols.lookup symbol with
  | some c => h.callLocked symbol c
  | none => (h, 0)

/-- Lets the host look at its signals; a signal is an error. -/
def checkSignals (h : Host π σ) : Host π σ × Except Error Unit :=
  let (h, answer) := h.callSymbol .checkSignals
  (h, if answer ≠ 0 then .error .hostErrorSet else .ok ())

/-- Adds or drops a reference to a host object; nothing happens for a null object. -/
def countReference (h : Host π σ) (symbol : HostSymbol) (isNull : Bool) : Host π σ :=
  if isNull then h else (h.callSymbol symbol).1

/-- Takes the lock twice and gives it back, the outer guard first. -/
def lockTwice (h : Host π σ) : Host π σ :=
  let (h, outer) := h.lock
  let (h, inner) := h.lock
  (h.unlock outer).unlock inner

end Host

/-! ## A host that counts -/

/-- The functions of a host that counts.  A quiet check never reports a signal. -/
inductive HostCallback where
  | check | quietCheck | acquire | release | addReference | dropReference
  deriving DecidableEq, Repr

/-- A host that counts; its state is the signal waiting to be reported. -/
abbrev CountingHost := Host HostCallback Int

namespace Host

/-- How often a function was called. -/
def callCount (h : CountingHost) (c : HostCallback) : Nat := h.calls.countP (·.callback == c)

/-- How many locks a list of calls leaves held. -/
def depthOf (calls : List (HostCall HostCallback)) : Int :=
  (calls.countP (·.callback == .acquire) : Int) - calls.countP (·.callback == .release)

/-- How many locks are held. -/
def depth (h : CountingHost) : Int := depthOf h.calls

/-- The greatest number of locks held after acquiring one. -/
def maxDepthOf : List (HostCall HostCallback) → Int
  | [] => 0
  | c :: rest =>
    if c.callback == .acquire then max (depthOf (c :: rest)) (maxDepthOf rest) else maxDepthOf rest

/-- The greatest number of locks ever held. -/
def maxDepth (h : CountingHost) : Int := maxDepthOf h.calls

/-- How many signal checks were made while a lock was held. -/
def lockedChecksOf : List (HostCall HostCallback) → Nat
  | [] => 0
  | c :: rest =>
    lockedChecksOf rest + if c.callback == .check && decide (depthOf rest > 0) then 1 else 0

/-- How many signal checks were made while a lock was held. -/
def lockedChecks (h : CountingHost) : Nat := lockedChecksOf h.calls

/-- References added to host objects, less those dropped. -/
def references (h : CountingHost) : Int :=
  (h.callCount .addReference : Int) - h.callCount .dropReference

/-- A check reports the waiting signal once; the lock returns how many locks are held with it. -/
instance : HostFunctions HostCallback Int where
  answer calls c _ pending :=
    match c with
    | .check => (pending, 0)
    | .acquire => (depthOf calls + 1, pending)
    | _ => (0, pending)

end Host

end ObjectRuntime
