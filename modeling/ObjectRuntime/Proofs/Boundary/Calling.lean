import ObjectRuntime.Boundary.Entry
import ObjectRuntime.Proofs.Boundary.Marshalling
import ObjectRuntime.Proofs.Function.Usage
set_option autoImplicit false

/-!
# Calls from outside

A function that is called through its handle, with cells for its arguments and a cell for its result,
answers as it does when it is called directly.  The arguments of such a call have more references
than those of a direct one, so this holds of functions to which counts make no difference
(`Function.Dependable`).
-/

namespace ObjectRuntime

open Heap (Owned)

variable {κ ε α : Type}

/-- Calling the function with the values has one outcome, whatever the counts of objects are; the
call borrows the function and the values, and its result is the caller's, which is not moved. -/
structure Function.Dependable [Callable ε] (f : ObjId) (vs : List Value)
    (w : World (FunctionCode ε)) : Prop where
  outcome : ∀ w', w.SameButCounts w' →
    (Function.invoke (some f) vs w').1 = (Function.invoke (some f) vs w).1
  result : ∀ r, (Function.invoke (some f) vs w).1 = .ok r → r.asResult = r
  owned : ∀ w' held, w.SameButCounts w' → w'.heap.Owned held → f ∈ held →
    (∀ x ∈ vs.filterMap Value.object?, x ∈ held) →
      (Function.invoke (some f) vs w').2.heap.Owned
        ((Function.invoke (some f) vs w').1.toOption.elim [] (·.object?.toList) ++ held)

namespace Boundary

variable {w w' : World κ} {vs : List Value} {others : List ObjId}

/-- Calls the function behind a handle with the cells of values. -/
def callWithValues [Callable ε] (f : Ref) (vs : List Value) :
    Run (FunctionCode ε) (Answer Cell) :=
  Run.withArguments vs do
    let count : Int := (← get).cells.length
    callFunction true true f count true

/-! ## The way in -/

/-- The function behind a handle is found, and nothing changes. -/
theorem needInstance_of_isInstance {name : HandleName} {cls : ObjectClass} {id : ObjId}
    (hclass : w.isInstance id cls = true) :
    needInstance name cls (some id) w = (.ok id, w) := by
  obtain ⟨first, hfirst⟩ : ∃ first, w.types.classIndex? cls = some first := by
    cases hc : w.types.classIndex? cls with
    | none => simp [World.isInstance, hc] at hclass
    | some first => exact ⟨first, rfl⟩
  rw [needInstance]
  refine (run_bind_of_ok (show Run.ofExcept (needObject name (some id)) w = (.ok id, w) from rfl)).trans ?_
  rw [run_bind_of_ok (Run.touch_of_classIndex? hfirst), run_get_bind, if_pos hclass]
  rfl

theorem elementsAt_range (as : List α) : elementsAt (List.range as.length) as = as := by
  induction as with
  | nil => rfl
  | cons a as ih =>
      rw [List.length_cons, List.range_succ_eq_map, elementsAt_of_some rfl, elementsAt,
        List.filterMap_map]
      exact congrArg (a :: ·) ih

theorem ofRun_eq {x : Run κ α} {o : Except Fault α} {a : Arguments} (hx : x w = (o, w')) :
    Incoming.ofRun x a w = ((o, a), w') := by
  simp only [Incoming.ofRun, hx]

/-- The outcome of a call and what is left of the cells and the world. -/
theorem guardedIncoming_of_ok {body : Incoming κ α} {a a' : Arguments} {out : α}
    (hbody : body a w = ((.ok out, a'), w')) :
    guardedIncoming body a w = ((.ok (.success out), a'), w') := by
  simp only [guardedIncoming, hbody]

theorem guardedIncoming_of_error {body : Incoming κ α} {a a' : Arguments} {fault : Fault}
    (hbody : body a w = ((.error fault, a'), w')) :
    guardedIncoming body a w =
      ((.ok .failure, a'), { w' with lastError := errorText fault.toError.message }) := by
  simp only [guardedIncoming, hbody]

theorem guardedIncoming_congr {body body' : Incoming κ α} {a a' : Arguments}
    (hbody : body a w = body' a' w') : guardedIncoming body a w = guardedIncoming body' a' w' := by
  simp only [guardedIncoming, hbody]

variable [Callable ε] {v v' : World (FunctionCode ε)} {f : ObjId}

/-- The function is called with what has been read from the cells, which is given up afterwards. -/
theorem callFunction_of_read {a a' : Arguments} (hclass : v.isInstance f .function = true)
    (hread : Incoming.readCells a.cells a v = ((.ok vs, a'), v')) :
    callFunction true true (some f) (a.cells.length : Int) true a v =
      guardedIncoming (Incoming.ofRun (do
        let result ← Run.releasing (vs.filterMap Value.object?) (Function.invoke (some f) vs)
        exportValue result)) a' v' := by
  have hpointer : Incoming.ofRun (Run.ofExcept (needPointer true)) a v = ((.ok (), a), v) := rfl
  have hneed : Incoming.ofRun (needInstance "TVMFunctionHandle" .function (some f)) a v =
      ((.ok f, a), v) := by
    simp only [Incoming.ofRun, needInstance_of_isInstance hclass]
  have hsome : ¬ ((a.cells.length : Int) < 0) := by omega
  have hall : a.cells.take (a.cells.length : Int).toNat = a.cells := by simp
  refine guardedIncoming_congr ?_
  rw [Incoming.bind_of_ok hpointer, Incoming.bind_of_ok hpointer, Incoming.bind_of_ok hneed,
    if_neg hsome, if_neg (by simp), Incoming.get_bind, hall, Incoming.bind_of_ok hread]

/-- All cells are read, and only counts change. -/
theorem exists_read {w : World κ} {a : Arguments} (ha : a.Holds vs)
    (hb : w.heap.Owned (vs.filterMap Value.object? ++ others)) :
    ∃ a' w', Incoming.readCells a.cells a w = ((.ok vs, a'), w') ∧ w.SameButCounts w' ∧
      w'.heap.Owned (vs.filterMap Value.object? ++ (a'.references ++ others)) := by
  have hnodup : (List.range vs.length).Nodup := List.nodup_range
  obtain ⟨a', w', h⟩ := ha.decoded hb hnodup
  have hcells : elementsAt (List.range vs.length) a.cells = a.cells := by
    rw [← ha.length, elementsAt_range]
  have hrun := h.run
  rw [hcells, elementsAt_range] at hrun
  have haccounts := Incoming.accounts_readCells a.cells
    (hb.perm (ha.references_perm.append_right others)) (Run.lent_of_holds ha)
  rw [hrun] at haccounts
  exact ⟨a', w', hrun, h.same, haccounts.leaves.owned⟩

/-- What the call answers, and what it leaves once the cells have been given up. -/
theorem callWithValues_of_answer {a a' a'' : Arguments} {answer : Answer Cell}
    {v'' : World (FunctionCode ε)} (hfill : Arguments.ofValues vs = .ok a)
    (hclass : v.isInstance f .function = true)
    (hread : Incoming.readCells a.cells a v = ((.ok vs, a'), v'))
    (hanswer : guardedIncoming (Incoming.ofRun (do
        let result ← Run.releasing (vs.filterMap Value.object?) (Function.invoke (some f) vs)
        exportValue result)) a' v' = ((.ok answer, a''), v'')) :
    callWithValues (some f) vs v =
      (.ok answer, v''.withHeap (a''.references.foldl Heap.release v''.heap)) := by
  have hcall := callFunction_of_read hclass hread
  rw [hanswer] at hcall
  simp only [callWithValues, Run.withArguments, hfill, Run.withCells, Incoming.get_bind, hcall]
  rfl

/-! ## The way out -/

theorem ofResult_of_hasZero {r : Value} (h : r.HasZero) : Cell.ofResult r = .error .embeddedNul := by
  obtain ⟨s, rfl, hs⟩ := h
  exact Cell.ofValue_of_hasZero ⟨s, rfl, hs⟩

theorem exists_ofResult {r : Value} (h : ¬ r.HasZero) (hr : r.asResult = r) :
    ∃ c, Cell.ofResult r = .ok c := by
  rw [Cell.ofResult, hr]
  exact Cell.exists_ofValue 0 h

/-- The cell of a result is read as the result, with the reference that was put into it. -/
theorem readReturned_of_ofResult {w : World κ} {r : Value} {c : Cell} (hr : r.asResult = r)
    (hc : Cell.ofResult r = .ok c) (hb : w.heap.Owned (r.object?.toList ++ others)) :
    c.code = r.typeCode ∧ ∃ w', Run.readReturned c w = (.ok r, w') ∧
      w'.heap.Owned (r.object?.toList ++ others) := by
  rw [Cell.ofResult, hr] at hc
  have hmoved : r.moved? = none := by
    cases hid : r.moved? with
    | none => rfl
    | some id =>
        rw [Value.eq_of_moved? hid] at hr
        cases hr
  have hpassed : r.passed?.toList = r.object?.toList := by
    rw [← Value.toList_moved?_append, hmoved]
    rfl
  have hclaim : (Arguments.ofCells [c]).claim 0 r = Arguments.ofCells [c] := by
    cases r with
    | object tag id =>
        cases tag with
        | moved => cases hmoved
        | _ => rfl
    | _ => rfl
  have hread := Incoming.readCell_of_ofValue (a := Arguments.ofCells [c]) (w := w) hc fun id hid => by
    rw [hmoved] at hid
    cases hid
  rw [hclaim, hpassed] at hread
  have hretained : (w.heap.retainAll r.object?.toList).Owned
      (r.object?.toList ++ (r.object?.toList ++ others)) :=
    hb.retainAll fun x hx => hb.alive_of_mem (List.mem_append_left _ hx)
  have hrun : Incoming.readReturned c (Arguments.ofCells [c]) w = ((.ok r, Arguments.ofCells [c]),
      w.withHeap (r.object?.toList.foldl Heap.release (w.heap.retainAll r.object?.toList))) := by
    rw [Incoming.readReturned, Incoming.bind_of_ok hread]
    exact congrArg (fun r => ((Except.ok r, _), _)) hr
  refine ⟨Cell.code_of_ofValue hc, w.withHeap _, ?_, hretained.releases⟩
  simp only [Run.readReturned, Run.withCells, hrun]
  rfl

/-! ## Agreement -/

/-- The call fails with a message. -/
def FailsWith (answer : Answer Cell) (message : String) (others : List ObjId) (w : World κ) : Prop :=
  answer = .failure ∧ w.lastError = errorText message ∧ w.heap.Owned others

/-- A function is called on what has been read, and its result put into a cell. -/
theorem call_of_read {others : List ObjId} (hf : f ∈ others) (hd : Function.Dependable f vs v)
    (hsame : v.SameButCounts v')
    (hb : v'.heap.Owned (vs.filterMap Value.object? ++ others)) :
    ∃ v'', Run.releasing (vs.filterMap Value.object?) (Function.invoke (some f) vs) v' =
        ((Function.invoke (some f) vs v).1, v'') ∧
      v''.heap.Owned
        ((Function.invoke (some f) vs v).1.toOption.elim [] (·.object?.toList) ++ others) := by
  have howned := hd.owned v' _ hsame hb (List.mem_append_right _ hf) fun x hx =>
    List.mem_append_left _ hx
  rw [hd.outcome v' hsame] at howned
  refine ⟨(Function.invoke (some f) vs v').2.withHeap _, ?_,
    (howned.perm (List.perm_append_comm_assoc _ _ _)).releases⟩
  rw [← hd.outcome v' hsame]
  rfl

/-- A call through the boundary answers as a direct call does. -/
theorem callWithValues_agrees {others : List ObjId}
    (hb : v.heap.Owned (vs.filterMap Value.object? ++ others)) (hf : f ∈ others)
    (hclass : v.isInstance f .function = true) (htexts : ∀ x ∈ vs, ¬ x.HasZero)
    (hd : Function.Dependable f vs v) :
    ∃ answer v', callWithValues (some f) vs v = (.ok answer, v') ∧
      (∀ r, (Function.invoke (some f) vs v).1 = .ok r → ¬ r.HasZero →
        ∃ c v'', answer = .success c ∧ c.code = r.typeCode ∧
          Run.readReturned c v' = (.ok r, v'') ∧ v''.heap.Owned (r.object?.toList ++ others)) ∧
      (∀ r, (Function.invoke (some f) vs v).1 = .ok r → r.HasZero →
        FailsWith answer Error.embeddedNul.message others v') ∧
      (∀ cause, (Function.invoke (some f) vs v).1 = .error (.error cause) →
        FailsWith answer cause.message others v') ∧
      (∀ cause, (Function.invoke (some f) vs v).1 = .error (.panic cause) →
        FailsWith answer (Error.panicked cause.message).message others v') := by
  obtain ⟨a, hfill, ha⟩ : ∃ a, Arguments.ofValues vs = .ok a ∧ a.Holds vs := by
    rcases Arguments.holds_empty.addAll vs with ⟨a, hfill, ha, -⟩ | ⟨u, done, -, -, -, -, hzero⟩
    · exact ⟨a, hfill, ha⟩
    · obtain ⟨x, hx, hzero⟩ := hzero
      exact absurd hzero (htexts x hx)
  obtain ⟨a', v₁, hread, hsame, hb₁⟩ := exists_read ha hb
  obtain ⟨v₂, hcall, hb₂⟩ := call_of_read (List.mem_append_right _ hf) hd hsame hb₁
  cases houtcome : (Function.invoke (some f) vs v).1 with
  | error fault =>
      rw [houtcome] at hcall hb₂
      have hanswer := callWithValues_of_answer hfill hclass hread
        (guardedIncoming_of_error (ofRun_eq (run_bind_of_error hcall)))
      have hleft : v₂.heap.Owned (a'.references ++ others) := hb₂
      refine ⟨.failure, _, hanswer, ?_, ?_, ?_, ?_⟩
      · rintro r ⟨⟩
      · rintro r ⟨⟩
      · rintro cause ⟨⟩
        exact ⟨rfl, rfl, hleft.releases⟩
      · rintro cause ⟨⟩
        exact ⟨rfl, rfl, hleft.releases⟩
  | ok r =>
      rw [houtcome] at hcall hb₂
      have hr := hd.result r houtcome
      by_cases hzero : r.HasZero
      · have hexport : exportValue r v₂ = (.error (.error .embeddedNul), v₂) := by
          rw [exportValue, ofResult_of_hasZero hzero]
          rfl
        have hanswer := callWithValues_of_answer hfill hclass hread
          (guardedIncoming_of_error (ofRun_eq ((run_bind_of_ok hcall).trans hexport)))
        have hleft : v₂.heap.Owned (a'.references ++ others) := by
          obtain ⟨s, rfl, -⟩ := hzero
          exact hb₂
        refine ⟨.failure, _, hanswer, ?_, ?_, ?_, ?_⟩
        · rintro r' ⟨⟩ hnot
          exact absurd hzero hnot
        · rintro r' ⟨⟩ -
          exact ⟨rfl, rfl, hleft.releases⟩
        · rintro cause ⟨⟩
        · rintro cause ⟨⟩
      · obtain ⟨c, hc⟩ := exists_ofResult hzero hr
        have hexport : exportValue r v₂ = (.ok c, v₂) := by
          rw [exportValue, hc]
          rfl
        have hanswer := callWithValues_of_answer hfill hclass hread
          (guardedIncoming_of_ok (ofRun_eq ((run_bind_of_ok hcall).trans hexport)))
        refine ⟨.success c, _, hanswer, ?_, ?_, ?_, ?_⟩
        · rintro r' ⟨⟩ -
          have hleft : v₂.heap.Owned (a'.references ++ (r.object?.toList ++ others)) :=
            hb₂.perm (List.perm_append_comm_assoc _ _ _)
          obtain ⟨hcode, v₃, hreturned, hb₃⟩ := readReturned_of_ofResult
            (w := v₂.withHeap (a'.references.foldl Heap.release v₂.heap)) hr hc hleft.releases
          exact ⟨c, v₃, rfl, hcode, hreturned, hb₃⟩
        · rintro r' ⟨⟩ hzero'
          exact absurd hzero' hzero
        · rintro cause ⟨⟩
        · rintro cause ⟨⟩

/-- Without a function a call through the boundary misses the handle, and a direct call misses the
function. -/
theorem null_function_disagrees :
    (Function.invoke none [] (World.initial : World (FunctionCode Usage.Relay))).1 =
        .error (.error (.nullHandle "Function")) ∧
      (callWithValues none [] (World.initial : World (FunctionCode Usage.Relay))).1 =
        .ok .failure ∧
      (callWithValues none [] (World.initial : World (FunctionCode Usage.Relay))).2.lastError ≠
        errorText (Error.nullHandle "Function").message := by
  refine ⟨rfl, rfl, ?_⟩
  decide +kernel

end Boundary

/-! ## A function that gives back its argument -/

/-- A program whose one function gives back its first argument. -/
inductive Giver where
  | giveBack

instance : Callable Giver where
  call _ _ args := do
    Run.retainValue (args.headD .null)
    return (args.headD .null).asResult

namespace Giver

variable {w : World (FunctionCode Giver)} {f : ObjId} {vs : List Value}

/-- The call of a function that is there. -/
theorem invoke_eq (hcode : w.payload? f = some (.function (.program .giveBack) none)) :
    Function.invoke (some f) vs w = (.ok (vs.headD .null).asResult, w.withHeap
      (((w.heap.retain f).retainAll (vs.headD .null).object?.toList).release f)) := by
  obtain ⟨o, ho, -⟩ := Option.map_eq_some_iff.mp hcode
  have hkept : (w.withHeap (w.heap.retain f)).payload? f =
      some (.function (.program .giveBack) none) :=
    ((Heap.alike_retain ho).payload f).trans hcode
  have hcall : Function.invokeWithin Function.maxDepth (some f) vs (w.withHeap (w.heap.retain f)) =
      (.ok (vs.headD .null).asResult, w.withHeap
        ((w.heap.retain f).retainAll (vs.headD .null).object?.toList)) := by
    change Function.invokeWithin (999 + 1) (some f) vs _ = _
    rw [Function.invokeWithin, run_get_bind, hkept]
    change (do
      Run.retainValue (vs.headD .null)
      return (vs.headD .null).asResult : Run (FunctionCode Giver) Value) _ = _
    cases vs.headD .null with
    | object tag id => rfl
    | _ => rfl
  have hretain : Run.retainRef (some f) w = (.ok (), w.withHeap (w.heap.retain f)) := rfl
  rw [Function.invoke, run_bind_of_ok hretain]
  simp only [Run.releasing, Run.andFinally, hcall]
  rfl

theorem dependable (hcode : w.payload? f = some (.function (.program .giveBack) none)) :
    Function.Dependable f vs w := by
  have hinvoke : ∀ w', w.SameButCounts w' → Function.invoke (some f) vs w' =
      (.ok (vs.headD .null).asResult, w'.withHeap
        (((w'.heap.retain f).retainAll (vs.headD .null).object?.toList).release f)) := by
    intro w' hsame
    refine invoke_eq ?_
    rw [World.payload?, hsame.alike.payload]
    exact hcode
  refine ⟨fun w' hsame => ?_, fun r hr => ?_, fun w' held hsame hb hf hvs => ?_⟩
  · rw [hinvoke w' hsame, invoke_eq hcode]
  · rw [invoke_eq hcode] at hr
    cases hr
    cases vs.headD .null with
    | object tag id => cases tag <;> rfl
    | _ => rfl
  · rw [hinvoke w' hsame]
    obtain ⟨o, ho⟩ := hb.alive_of_mem hf
    have hhead : ∀ x ∈ (vs.headD .null).object?.toList, ∃ o, (w'.heap.retain f).get? x = some o := by
      intro x hx
      have hx' : x ∈ f :: held := by
        refine List.mem_cons_of_mem f (hvs x ?_)
        cases vs with
        | nil => cases hx
        | cons v vs =>
            exact List.mem_filterMap.mpr ⟨v, List.mem_cons_self, Option.mem_toList.mp hx⟩
      exact (hb.retain ho).alive_of_mem hx'
    have hresult : (vs.headD .null).asResult.object? = (vs.headD .null).object? := by
      cases vs.headD .null with
      | object tag id => cases tag <;> rfl
      | _ => rfl
    have howned := ((hb.retain ho).retainAll hhead).perm List.perm_middle.symm
    simp only [Except.toOption, Option.elim, hresult]
    exact howned.release

/-- A function and an empty array. -/
def world : World (FunctionCode Giver) :=
  { (World.initial : World (FunctionCode Giver)) with
    types := ((TypeTable.initial.touch .function).2.touch .array).2
    heap := ((Heap.empty.alloc 7 (.function (.program .giveBack) none)).1.alloc 4 (.array [])).1 }

/-- The array is moved into the call and comes back with its one reference. -/
theorem giveBack_agrees : ∃ answer w', Boundary.callWithValues (some ⟨0⟩)
      [.object .moved ⟨1⟩] world = (.ok answer, w') ∧
    ∃ c w'', answer = .success c ∧ Run.readReturned c w' = (.ok (.object .object ⟨1⟩), w'') ∧
      w''.heap.Owned [⟨1⟩, ⟨0⟩] := by
  have hcode : world.payload? ⟨0⟩ = some (.function (.program .giveBack) none) := rfl
  have function : (Heap.empty.alloc 7 (.function (.program .giveBack) none) :
      Heap (FunctionCode Giver) × ObjId).1.Owned [⟨0⟩] := Owned.empty.alloc
  have hb : world.heap.Owned ([Value.object .moved ⟨1⟩].filterMap Value.object? ++ [⟨0⟩]) :=
    function.alloc
  have htexts : ∀ x ∈ [Value.object .moved ⟨1⟩], ¬ x.HasZero := by
    rintro x hx ⟨s, rfl, -⟩
    cases hx with
    | tail _ hx => cases hx
  obtain ⟨answer, w', hcall, hok, -⟩ := Boundary.callWithValues_agrees hb List.mem_cons_self
    (by decide +kernel) htexts (dependable hcode)
  have houtcome : (Function.invoke (some ⟨0⟩) [.object .moved ⟨1⟩] world).1 =
      .ok (.object .object ⟨1⟩) := by
    rw [invoke_eq hcode]
    rfl
  obtain ⟨c, w'', hanswer, -, hread, hb'⟩ := hok _ houtcome (by rintro ⟨s, h, -⟩; cases h)
  exact ⟨answer, w', hcall, c, w'', hanswer, hread, hb'⟩

end Giver

end ObjectRuntime
