import ObjectRuntime.Function.Code
import ObjectRuntime.Proofs.NameTable
import ObjectRuntime.Proofs.Object.Conservation
import ObjectRuntime.Proofs.Reflection.Growth
import ObjectRuntime.Sample.Callbacks
set_option autoImplicit false

/-!
# The registry over whole runs

Which function is under a name, and which one a wrapper calls, can be told from what has happened: the
registrations that succeeded, the removals and the calls of wrappers (`Registry.bound` and
`Registry.found`).  `Registry.Steps` says what a program may do meanwhile.  The functions that it
calls may use the registry as well; all else that they do leaves it alone, since nothing but these
operations can change it.
-/

namespace ObjectRuntime.Registry

variable {κ ε : Type}

/-! ## What has happened -/

/-- What happens to the registry and to the wrappers. -/
inductive Event where
  | registered (name : String) (f : Ref)
  | removed (name : String)
  | called (wrapper : Wrapper)

/-- The function under a name after some events, the latest first: the one that was registered last,
unless the name has been removed since.  Before all events it was that of `start`. -/
def bound (start : String → Option Ref) : List Event → String → Option Ref
  | [], name => start name
  | .registered name' f :: past, name => if name = name' then some f else bound start past name
  | .removed name' :: past, name => if name = name' then none else bound start past name
  | .called _ :: past, name => bound start past name

/-- The function that a wrapper calls: the one that was under its name when it was called for the
first time while there was one. -/
def found (start : String → Option Ref) : List Event → Wrapper → Option Ref
  | [], _ => none
  | .called wrapper' :: past, wrapper =>
    match found start past wrapper with
    | some f => some f
    | none => if wrapper = wrapper' then bound start past wrapper.function else none
  | .registered _ _ :: past, wrapper => found start past wrapper
  | .removed _ :: past, wrapper => found start past wrapper

variable {start : String → Option Ref} {past past' : List Event} {wrapper : Wrapper} {f : Ref}

/-- A wrapper goes on calling the function that it has found. -/
theorem found_append (h : found start past wrapper = some f) (later : List Event) :
    found start (later ++ past) wrapper = some f := by
  induction later with
  | nil => exact h
  | cons e later ih =>
      cases e with
      | registered name g => exact ih
      | removed name => exact ih
      | called wrapper' => rw [List.cons_append, found, ih]

/-- It has found it at a call before which there was nothing under its name whenever it was called. -/
theorem found_eq_some_iff : found start past wrapper = some f ↔
    ∃ later before, past = later ++ .called wrapper :: before ∧
      bound start before wrapper.function = some f ∧ found start before wrapper = none := by
  constructor
  · intro h
    induction past with
    | nil => cases h
    | cons e past ih =>
        have hrest : found start past wrapper = some f → ∃ later before,
            e :: past = later ++ .called wrapper :: before ∧
              bound start before wrapper.function = some f ∧
              found start before wrapper = none := by
          intro hpast
          obtain ⟨later, before, rfl, hfirst⟩ := ih hpast
          exact ⟨e :: later, before, rfl, hfirst⟩
        cases e with
        | registered name g => exact hrest h
        | removed name => exact hrest h
        | called wrapper' =>
            rw [found] at h
            cases hpast : found start past wrapper with
            | some g =>
                rw [hpast] at h
                exact hrest (hpast.trans h)
            | none =>
                simp only [hpast] at h
                split at h
                · rename_i heq
                  exact ⟨[], past, by rw [heq, List.nil_append], h, hpast⟩
                · cases h
  · rintro ⟨later, before, rfl, hbound, hnone⟩
    refine found_append ?_ later
    rw [found, hnone]
    simp only [if_true]
    exact hbound

/-- A call that finds nothing new changes nothing. -/
theorem found_called_of_known (h : found start past wrapper = some f ∨
    bound start past wrapper.function = none) (wrapper' : Wrapper) :
    found start (.called wrapper :: past) wrapper' = found start past wrapper' := by
  rw [found]
  split
  · rename_i hpast
    exact hpast.symm
  · rename_i hpast
    split
    · rename_i heq
      cases h with
      | inl hfound => rw [heq, hfound] at hpast; cases hpast
      | inr hnone => rw [hpast, heq, hnone]
    · exact hpast.symm

/-- The first call at which there is a function finds it. -/
theorem found_called_of_new (hnew : found start past wrapper = none)
    (hbound : bound start past wrapper.function = some f) (wrapper' : Wrapper) :
    found start (.called wrapper :: past) wrapper' =
      if wrapper' = wrapper then some f else found start past wrapper' := by
  rw [found]
  by_cases heq : wrapper' = wrapper
  · rw [heq, hnew]
    simp only [if_true]
    exact hbound
  · simp only [if_neg heq]
    cases found start past wrapper' <;> rfl

/-! ## The operations on a registry that has been made -/

section

variable {w w' : World (FunctionCode ε)} {name : String}

theorem prepare_of_ready (h : ∃ t, w.registry = .ready t) :
    prepare w = ((.ok (), w) : Except Fault Unit × World (FunctionCode ε)) := by
  obtain ⟨t, ht⟩ := h
  have hdemand : Run.demand World.registry (fun registry w => { w with registry })
      (NameTable.ofList <$> builtins) w =
        ((.ok t, w) : Except Fault _ × World (FunctionCode ε)) := by
    unfold Run.demand
    rw [run_get_bind, ht]
    rfl
  exact run_map_of_ok hdemand

theorem lookup_of_ready (h : ∃ t, w.registry = .ready t) (name : String) :
    lookup name w = (.ok (find? w name), w) :=
  run_bind_of_ok (prepare_of_ready h)

theorem list_of_ready (h : ∃ t, w.registry = .ready t) : list w = (.ok (names w), w) :=
  run_bind_of_ok (prepare_of_ready h)

theorem remove_of_ready (h : ∃ t, w.registry = .ready t) (name : String) :
    remove name w = (.ok (find? w name).isSome,
      { w with registry := .ready (NameTable.erase name w.functions) }) :=
  run_bind_of_ok (lookup_of_ready h name)

/-- A name that is taken is refused, and the function that was to be registered is given up. -/
theorem register_of_taken (h : ∃ t, w.registry = .ready t) (htaken : (find? w name).isSome)
    (f : Ref) : register name f false w =
      (.error (.error (.functionExists name)),
        w.withHeap (f.toList.foldl Heap.release w.heap)) := by
  unfold register
  rw [run_bind_of_ok (Run.releasingOnFault_of_ok (lookup_of_ready h name)), htaken]
  rfl

/-- A name that is free is given to the function, and so is one that is taken if this is wanted. -/
theorem register_of_free (h : ∃ t, w.registry = .ready t) {override : Bool}
    (hfree : find? w name = none ∨ override = true) (f : Ref) : register name f override w =
      (.ok (), { w with registry := .ready (NameTable.put name f w.functions) }) := by
  unfold register
  rw [run_bind_of_ok (Run.releasingOnFault_of_ok (lookup_of_ready h name))]
  have hcondition : ((find? w name).isSome && !override) = false := by
    cases hfree with
    | inl hnone => rw [hnone]; rfl
    | inr hwanted => rw [hwanted, Bool.not_true, Bool.and_false]
  rw [hcondition]
  rfl

/-- A wrapper that has found its function does not look it up again. -/
theorem wrapped_of_found (hfound : w.wrappers.lookup wrapper = some f) :
    Function.wrapped wrapper w = (.ok f, w) := by
  unfold Function.wrapped
  rw [run_get_bind, hfound]
  rfl

/-- One that finds it remembers it. -/
theorem wrapped_of_bound (h : ∃ t, w.registry = .ready t)
    (hnew : w.wrappers.lookup wrapper = none) (hbound : find? w wrapper.function = some f) :
    Function.wrapped wrapper w =
      (.ok f, { w with wrappers := (wrapper, f) :: w.wrappers }) := by
  have hget : get wrapper.function w = (.ok f, w) := by
    unfold get
    rw [run_bind_of_ok (lookup_of_ready h _), hbound]
    rfl
  unfold Function.wrapped
  rw [run_get_bind, hnew]
  exact run_bind_of_ok hget

/-- One that does not find it fails and remembers nothing. -/
theorem wrapped_of_missing (h : ∃ t, w.registry = .ready t)
    (hnew : w.wrappers.lookup wrapper = none) (hbound : find? w wrapper.function = none) :
    Function.wrapped wrapper w = (.error (.error (.functionMissing wrapper.function)), w) := by
  have hget : get wrapper.function w =
      (.error (.error (.functionMissing wrapper.function)), w) := by
    unfold get
    rw [run_bind_of_ok (lookup_of_ready h _), hbound]
    rfl
  unfold Function.wrapped
  rw [run_get_bind, hnew]
  exact run_bind_of_error hget

end

/-! ## What a program does -/

/-- What a program may do, and what is kept of it in a list of events.  A wrapper that is called looks
its function up; what this function does then are further steps. -/
inductive Steps : World (FunctionCode ε) → List Event → World (FunctionCode ε) → List Event → Prop
  | refl (w : World (FunctionCode ε)) (past : List Event) : Steps w past w past
  | trans {w w' w'' : World (FunctionCode ε)} {past past' past'' : List Event}
      (h : Steps w past w' past') (h' : Steps w' past' w'' past'') : Steps w past w'' past''
  | aside {w w' : World (FunctionCode ε)} {past : List Event}
      (hregistry : w'.registry = w.registry) (hwrappers : w'.wrappers = w.wrappers) :
      Steps w past w' past
  | registered {w w' : World (FunctionCode ε)} {past : List Event} {name : String} {f : Ref}
      {override : Bool} (h : register name f override w = (.ok (), w')) :
      Steps w past w' (.registered name f :: past)
  | refused {w w' : World (FunctionCode ε)} {past : List Event} {name : String} {f : Ref}
      {override : Bool} {fault : Fault} (h : register name f override w = (.error fault, w')) :
      Steps w past w' past
  | removed {w w' : World (FunctionCode ε)} {past : List Event} {name : String}
      {answer : Except Fault Bool} (h : remove name w = (answer, w')) :
      Steps w past w' (.removed name :: past)
  | looked {w w' : World (FunctionCode ε)} {past : List Event} {name : String}
      {answer : Except Fault (Option Ref)} (h : lookup name w = (answer, w')) :
      Steps w past w' past
  | listed {w w' : World (FunctionCode ε)} {past : List Event}
      {answer : Except Fault (List String)} (h : list w = (answer, w')) : Steps w past w' past
  | called {w w' : World (FunctionCode ε)} {past : List Event} {wrapper : Wrapper}
      {answer : Except Fault Ref} (h : Function.wrapped wrapper w = (answer, w')) :
      Steps w past w' (.called wrapper :: past)

/-- What holds after each step: the registry and the wrappers are what the events make of them. -/
structure Follows (start : String → Option Ref) (past : List Event) (w : World κ) : Prop where
  ready : ∃ t, w.registry = .ready t
  nodup : (w.functions.map Prod.fst).Nodup
  bound : ∀ name, find? w name = Registry.bound start past name
  found : ∀ wrapper, w.wrappers.lookup wrapper = Registry.found start past wrapper

namespace Follows

variable {w w' : World (FunctionCode ε)} {name : String}

theorem aside (h : Follows start past w) (hregistry : w'.registry = w.registry)
    (hwrappers : w'.wrappers = w.wrappers) : Follows start past w' := by
  have hfunctions : w'.functions = w.functions := by
    unfold World.functions
    rw [hregistry]
  refine ⟨hregistry ▸ h.ready, hfunctions ▸ h.nodup, fun name => ?_, fun wrapper => ?_⟩
  · rw [← h.bound, find?, find?, hfunctions]
  · rw [← h.found, hwrappers]

/-- The three ways in which a registration ends. -/
theorem register (h : Follows start past w) (f : Ref) (override : Bool)
    {answer : Except Fault Unit} (hrun : Registry.register name f override w = (answer, w')) :
    (∃ fault, answer = .error fault ∧ Follows start past w') ∨
      answer = .ok () ∧ Follows start (.registered name f :: past) w' := by
  by_cases hfree : find? w name = none ∨ override = true
  · rw [register_of_free h.ready hfree] at hrun
    cases hrun
    refine .inr ⟨rfl, ⟨_, rfl⟩, NameTable.nodup_put h.nodup, fun key => ?_, h.found⟩
    rw [Registry.bound, ← h.bound]
    exact NameTable.lookup_put name key f
  · rw [not_or, Bool.not_eq_true] at hfree
    obtain ⟨htaken, rfl⟩ := hfree
    rw [register_of_taken h.ready (Option.isSome_iff_ne_none.mpr htaken)] at hrun
    cases hrun
    exact .inl ⟨_, rfl, h.aside rfl rfl⟩

theorem remove (h : Follows start past w) {answer : Except Fault Bool}
    (hrun : Registry.remove name w = (answer, w')) :
    Follows start (.removed name :: past) w' := by
  rw [remove_of_ready h.ready] at hrun
  cases hrun
  refine ⟨⟨_, rfl⟩, NameTable.nodup_erase h.nodup, fun key => ?_, h.found⟩
  rw [Registry.bound, ← h.bound]
  exact NameTable.lookup_erase name key

/-- A wrapper that is called has its function, or finds it, or fails. -/
theorem called (h : Follows start past w) {answer : Except Fault Ref}
    (hrun : Function.wrapped wrapper w = (answer, w')) :
    Follows start (.called wrapper :: past) w' := by
  have hunchanged : ∀ hknown : (∃ f, Registry.found start past wrapper = some f) ∨
      Registry.bound start past wrapper.function = none,
      Follows start (.called wrapper :: past) w := by
    intro hknown
    refine ⟨h.ready, h.nodup, h.bound, fun wrapper' => ?_⟩
    obtain ⟨f, hf⟩ | hnone := hknown
    · rw [h.found, found_called_of_known (.inl hf)]
    · rw [h.found, found_called_of_known (f := none) (.inr hnone)]
  cases hfound : Registry.found start past wrapper with
  | some f =>
      rw [wrapped_of_found ((h.found wrapper).trans hfound)] at hrun
      cases hrun
      exact hunchanged (.inl ⟨f, hfound⟩)
  | none =>
      have hnew := (h.found wrapper).trans hfound
      cases hbound : Registry.bound start past wrapper.function with
      | none =>
          rw [wrapped_of_missing h.ready hnew ((h.bound _).trans hbound)] at hrun
          cases hrun
          exact hunchanged (.inr hbound)
      | some f =>
          rw [wrapped_of_bound h.ready hnew ((h.bound _).trans hbound)] at hrun
          cases hrun
          refine ⟨h.ready, h.nodup, h.bound, fun wrapper' => ?_⟩
          rw [found_called_of_new hfound hbound, lookup_cons_eq, h.found]

/-- Whatever a program does, the registry and the wrappers are what the events make of them. -/
theorem steps (hsteps : Steps w past w' past') (h : Follows start past w) :
    Follows start past' w' := by
  induction hsteps with
  | refl => exact h
  | trans _ _ ih ih' => exact ih' (ih h)
  | aside hregistry hwrappers => exact h.aside hregistry hwrappers
  | @registered _ _ _ _ f override hrun =>
      obtain ⟨fault, herror, -⟩ | ⟨-, h'⟩ := h.register f override hrun
      · cases herror
      · exact h'
  | @refused _ _ _ _ f override _ hrun =>
      obtain ⟨-, -, h'⟩ | ⟨hok, -⟩ := h.register f override hrun
      · exact h'
      · cases hok
  | removed hrun => exact h.remove hrun
  | looked hrun =>
      rw [lookup_of_ready h.ready] at hrun
      cases hrun
      exact h
  | listed hrun =>
      rw [list_of_ready h.ready] at hrun
      cases hrun
      exact h
  | called hrun => exact h.called hrun

end Follows

/-- Events are only added. -/
theorem Steps.suffix {w w' : World (FunctionCode ε)} (h : Steps w past w' past') :
    ∃ later, past' = later ++ past := by
  induction h with
  | refl | aside _ _ | refused _ | looked _ | listed _ => exact ⟨[], rfl⟩
  | registered _ | removed _ | called _ => exact ⟨[_], rfl⟩
  | trans _ _ ih ih' =>
      obtain ⟨later, rfl⟩ := ih
      obtain ⟨later', rfl⟩ := ih'
      exact ⟨later' ++ later, (List.append_assoc _ _ _).symm⟩

/-! ## The registry at the start -/

/-- A function that is built in. -/
def IsBuiltin (w : World (FunctionCode ε)) (b : Builtin) (f : Ref) : Prop :=
  ∃ id, f = some id ∧ w.payload? id = some (.function (.builtin b) none)

/-- Makes a built-in function for the registry. -/
def enter (b : Builtin) : Run (FunctionCode ε) (String × Ref) := do
  return (b.name, some (← Function.make (.builtin b) none))

/-- Built-in functions are made one after another. -/
theorem mapM_enter {w : World (FunctionCode ε)} {first : Nat}
    (hclass : w.types.classIndex? .function = some first) (h : Heap (FunctionCode ε))
    (bs : List Builtin) : ∃ table h', bs.mapM enter (w.withHeap h) = (.ok table, w.withHeap h') ∧
      h.Grown h' ∧
      List.Forall₂ (fun b e => e.1 = b.name ∧ IsBuiltin (w.withHeap h') b e.2) bs table := by
  induction bs generalizing h with
  | nil => exact ⟨[], h, rfl, .refl h, .nil⟩
  | cons b bs ih =>
      have hmake : enter b (w.withHeap h) = (.ok (b.name, some ⟨h.cells.size⟩),
          w.withHeap (h.alloc first (.function (.builtin b) none)).1) :=
        run_bind_of_ok (Run.create_of_classIndex? hclass _)
      obtain ⟨table, h', hrun, hgrown, hall⟩ :=
        ih (h.alloc first (.function (.builtin b) none)).1
      have hmade : (w.withHeap (h.alloc first (.function (.builtin b) none)).1).payload?
          ⟨h.cells.size⟩ = some (.function (.builtin b) none) := by
        unfold World.payload?
        rw [World.withHeap_heap, Heap.get?_alloc, if_pos rfl]
        rfl
      refine ⟨(b.name, some ⟨h.cells.size⟩) :: table, h', ?_,
        (Heap.grown_alloc h _ _).trans hgrown, .cons ⟨rfl, _, rfl, ?_⟩ hall⟩
      · rw [List.mapM_cons, run_bind_of_ok hmake, run_bind_of_ok hrun]
        rfl
      · exact World.payload?_grown (w := w.withHeap (h.alloc first _).1) hgrown hmade

/-- All of them can be made if the class of functions can be had, which is looked up for the first. -/
theorem builtins_of_touch {w w' : World (FunctionCode ε)} {first : Nat}
    (htouch : Run.touch .function w = (.ok first, w')) : ∃ table h',
      builtins w = (.ok table, w'.withHeap h') ∧
      List.Forall₂ (fun b e => e.1 = b.name ∧ IsBuiltin (w'.withHeap h') b e.2) Builtin.all
        table := by
  have hknown := Run.known_of_touch htouch
  obtain ⟨table, h', hrun, -, hall⟩ := mapM_enter hknown w'.heap Builtin.all
  have hfirst : enter .string w = _ := run_bind_of_ok (Run.create_of_touch htouch)
  have hagain : enter .string w' = _ :=
    run_bind_of_ok (Run.create_of_touch (Run.touch_of_classIndex? hknown))
  refine ⟨table, h', ?_, hall⟩
  rw [← hrun]
  change (Builtin.all.mapM enter) w = (Builtin.all.mapM enter) w'
  unfold Builtin.all
  rw [List.mapM_cons, run_bind_of_ok hfirst, run_bind_of_ok hagain]

theorem nodup_names : (Builtin.all.map Builtin.name).Nodup := by decide +kernel

theorem mem_all (b : Builtin) : b ∈ Builtin.all := by cases b <;> decide

/-- The registry is made with the built-in functions. -/
theorem exists_prepare {w₀ w₁ : World (FunctionCode ε)} {first : Nat}
    (hunused : w₀.registry = .unused) (htouch : Run.touch .function w₀ = (.ok first, w₁)) :
    ∃ w, prepare w₀ = (.ok (), w) ∧ w.wrappers = w₀.wrappers ∧ (∃ t, w.registry = .ready t) ∧
      (w.functions.map Prod.fst).Nodup ∧
      (∀ name, find? w name = none ↔ ∀ b : Builtin, b.name ≠ name) ∧
      ∀ b : Builtin, ∃ f, find? w b.name = some f ∧ IsBuiltin w b f := by
  -- nothing can be had from the registry while it is being made
  have hbroken : Run.touch .function { w₀ with registry := .broken } =
      (.ok first, { w₁ with registry := .broken }) := by
    obtain ⟨hanswer, rfl⟩ := Prod.mk.inj htouch
    exact Prod.ext hanswer rfl
  obtain ⟨table, h, hbuiltins, hall⟩ := builtins_of_touch hbroken
  have hnames : Builtin.all.map Builtin.name = table.map Prod.fst := by
    rw [← List.forall₂_eq_eq_eq, List.forall₂_map_left_iff, List.forall₂_map_right_iff]
    exact hall.imp fun b e he => he.1.symm
  have hnodup : (table.map Prod.fst).Nodup := hnames ▸ nodup_names
  have hfound : ∀ b : Builtin, ∃ f, table.lookup b.name = some f ∧
      IsBuiltin (w₁.withHeap h) b f := by
    intro b
    obtain ⟨e, he, hname, hbuiltin⟩ := exists_mem_of_forall₂_left hall (mem_all b)
    exact ⟨e.2, lookup_of_mem hnodup (hname ▸ he), hbuiltin⟩
  have hkept : w₁.wrappers = w₀.wrappers := by
    obtain ⟨-, rfl⟩ := Prod.mk.inj htouch
    rfl
  have hdemand : Run.demand World.registry (fun registry w => { w with registry })
      (NameTable.ofList <$> builtins) w₀ =
        (.ok (NameTable.ofList table),
          { w₁ with heap := h, registry := .ready (NameTable.ofList table) }) := by
    unfold Run.demand
    rw [run_get_bind, hunused]
    exact run_bind_of_ok (run_map_of_ok hbuiltins)
  rw [NameTable.ofList_of_nodup hnodup] at hdemand
  refine ⟨{ w₁ with heap := h, registry := .ready table }, run_map_of_ok hdemand, hkept, ⟨_, rfl⟩,
    hnodup, fun name => ⟨fun hnone b hb => ?_, fun hne => List.lookup_eq_none_iff.mpr ?_⟩, hfound⟩
  · obtain ⟨f, hf, -⟩ := hfound b
    rw [hb] at hf
    cases hf.symm.trans hnone
  · intro e he
    obtain ⟨b, -, hb⟩ : ∃ b ∈ Builtin.all, b.name = e.1 := by
      rw [← List.mem_map, hnames]
      exact List.mem_map_of_mem he
    simpa using fun heq => hne b (hb.trans heq.symm)

/-! ## The law -/

/-- The operations do the same in two worlds. -/
structure UsedAlike [Callable ε] (w₀ w : World (FunctionCode ε)) : Prop where
  registered : ∀ name f override, register name f override w₀ = register name f override w
  removed : ∀ name, remove name w₀ = remove name w
  looked : ∀ name, lookup name w₀ = lookup name w
  listed : list w₀ = list w
  called : ∀ wrapper result args,
    Function.callWrapper wrapper result args w₀ = Function.callWrapper wrapper result args w

/-- What the operations do after some events.  A registration is refused if the name is taken and is
not to be given anew; the function is then given up, and nothing else changes.  A wrapper fails as
long as it has found nothing, and otherwise calls what it has found. -/
structure Lawful [Callable ε] (start : String → Option Ref) (past : List Event)
    (w : World (FunctionCode ε)) : Prop where
  refused : ∀ name f, (bound start past name).isSome → register name f false w =
    (.error (.error (.functionExists name)), w.withHeap (f.toList.foldl Heap.release w.heap))
  accepted : ∀ name f override, bound start past name = none ∨ override = true →
    ∃ w', register name f override w = (.ok (), w')
  removed : ∀ name, ∃ w', remove name w = (.ok (bound start past name).isSome, w')
  looked : ∀ name, lookup name w = (.ok (bound start past name), w)
  listed : ∃ names, list w = (.ok names, w) ∧ names.Pairwise (· < ·) ∧
    ∀ name, name ∈ names ↔ (bound start past name).isSome
  missing : ∀ wrapper result args, found start (.called wrapper :: past) wrapper = none →
    Function.callWrapper wrapper result args w =
      (.error (.error (.functionMissing wrapper.function)), w)
  called : ∀ wrapper f, found start (.called wrapper :: past) wrapper = some f →
    ∃ w', Steps w past w' (.called wrapper :: past) ∧ ∀ result args,
      Function.callWrapper wrapper result args w = Function.callMoving f result args w'

section

variable {w₀ w w' : World (FunctionCode ε)}

/-- What is found after a call has been found before or is found by it. -/
theorem Follows.wrapped_of_found (h : Follows start past w)
    (hfound : Registry.found start (.called wrapper :: past) wrapper = some f) :
    ∃ w', Function.wrapped wrapper w = (.ok f, w') := by
  cases hpast : Registry.found start past wrapper with
  | some g =>
      rw [found_called_of_known (.inl hpast), hpast] at hfound
      cases hfound
      exact ⟨w, Registry.wrapped_of_found ((h.found wrapper).trans hpast)⟩
  | none =>
      cases hbound : Registry.bound start past wrapper.function with
      | none =>
          rw [found_called_of_known (f := none) (.inr hbound), hpast] at hfound
          cases hfound
      | some g =>
          rw [found_called_of_new hpast hbound, if_pos rfl] at hfound
          cases hfound
          exact ⟨_, wrapped_of_bound h.ready ((h.found wrapper).trans hpast)
            ((h.bound _).trans hbound)⟩

theorem Follows.wrapped_of_missing (h : Follows start past w)
    (hmissing : Registry.found start (.called wrapper :: past) wrapper = none) :
    Function.wrapped wrapper w = (.error (.error (.functionMissing wrapper.function)), w) := by
  rw [Registry.found] at hmissing
  cases hpast : Registry.found start past wrapper with
  | some g => simp [hpast] at hmissing
  | none =>
      simp only [hpast, if_true] at hmissing
      exact Registry.wrapped_of_missing h.ready ((h.found wrapper).trans hpast)
        ((h.bound _).trans hmissing)

variable [Callable ε]

/-- A registry that has not been used is made by the first use. -/
theorem usedAlike_of_prepare (hwrappers : w₀.wrappers = []) (hkept : w.wrappers = w₀.wrappers)
    (hready : ∃ t, w.registry = .ready t) (hprepare : prepare w₀ = (.ok (), w)) :
    UsedAlike w₀ w := by
  have hlooked : ∀ name, lookup name w₀ = lookup name w := fun name =>
    (run_bind_of_ok hprepare).trans (lookup_of_ready hready name).symm
  refine ⟨fun name f override => ?_, fun name => ?_, hlooked, ?_, fun wrapper result args => ?_⟩
  · have hguarded : Run.releasingOnFault f.toList (lookup name) w₀ =
        Run.releasingOnFault f.toList (lookup name) w := by
      unfold Run.releasingOnFault Run.onFault
      rw [hlooked name]
    exact run_bind_congr _ hguarded
  · exact run_bind_congr _ (hlooked name)
  · exact run_bind_congr _ (hprepare.trans (prepare_of_ready hready).symm)
  · have hwrapped : Function.wrapped wrapper w₀ = Function.wrapped wrapper w := by
      unfold Function.wrapped
      rw [run_get_bind, run_get_bind, hkept, hwrappers]
      exact run_bind_congr _ (run_bind_congr _ (hlooked _))
    exact run_bind_congr _ hwrapped

theorem Follows.lawful (h : Follows start past w) : Lawful start past w where
  refused name f htaken := register_of_taken h.ready ((h.bound name).symm ▸ htaken) f
  accepted name f override hfree :=
    ⟨_, register_of_free h.ready (hfree.imp_left (h.bound name).trans) f⟩
  removed name := ⟨_, by rw [← h.bound]; exact remove_of_ready h.ready name⟩
  looked name := by
    rw [← h.bound]
    exact lookup_of_ready h.ready name
  listed := by
    refine ⟨names w, list_of_ready h.ready, NameTable.pairwise_sortedNames h.nodup, fun name => ?_⟩
    rw [← h.bound]
    exact NameTable.mem_sortedNames_iff
  missing wrapper result args hmissing := run_bind_of_error (h.wrapped_of_missing hmissing)
  called wrapper f hfound := by
    obtain ⟨w', hrun⟩ := h.wrapped_of_found hfound
    exact ⟨w', .called hrun, fun result args => run_bind_of_ok hrun⟩

end

/-- A wrapper of a function that is not built in. -/
def square : Wrapper := ⟨"square", "sample.square"⟩

end ObjectRuntime.Registry
