import ObjectRuntime.Proofs.Function.Closures
import ObjectRuntime.Proofs.Reflection.Growth
set_option autoImplicit false

/-!
# Exactness of typed functions

`Run.Evaluates` says by rules what a call of a typed function does.  Its first two rules do not mention
the body: a call with a wrong number of arguments, or with an argument that cannot be converted, ends
before the body runs.  A call has the answer that the rules give it, and no other.
-/

namespace ObjectRuntime

variable {κ : Type}

/-! ## Rules -/

/-- Arguments converted from left to right, each in the world that the ones before it have left. -/
inductive Args.Converts :
    World κ → (ts : List ValueType) → List Value → Args ts → World κ → Prop
  | nil (w : World κ) : Converts w [] [] () w
  | cons {w w₁ w₂ : World κ} {t : ValueType} {ts : List ValueType} {v : Value} {vs : List Value}
      {x : t.Carrier} {xs : Args ts} (hhead : Run.decode t v w = (.ok x, w₁))
      (htail : Converts w₁ ts vs xs w₂) : Converts w (t :: ts) (v :: vs) (x, xs) w₂

/-- Gives up the references in members of types, those of the last one first. -/
def Args.giveUp : (ts : List ValueType) → Args ts → Heap κ → Heap κ
  | [], _, h => h
  | t :: ts, (x, xs), h => (t.references x).foldl Heap.release (giveUp ts xs h)

/-- A fault of the conversion of an argument, as the caller sees it: an error names the argument. -/
def Fault.ofArgument (name signature : String) (index : Nat) : Fault → Fault
  | .error cause => .error (.argConversion name signature index cause)
  | .panic cause => .panic cause

/-- What a call of a typed function does.  The number of arguments has to be that of the parameters;
the first argument that cannot be converted is the reason if one cannot be; and otherwise the body
runs on the converted arguments, and the call ends as the body does: with its fault, or with the
value of its result. -/
inductive Run.Evaluates (name : String) (s : Signature)
    (body : Args s.params → Run κ s.result.Carrier) (vs : List Value) (w : World κ) :
    Except Fault Value → World κ → Prop
  | argCount (hcount : vs.length ≠ s.params.length) :
      Evaluates name s body vs w
        (.error (.error (.argCount name s.text s.params.length vs.length))) w
  | argConversion {before after : List ValueType} {t : ValueType} {us rest : List Value} {v : Value}
      {xs : Args before} {w₁ w₂ : World κ} {fault : Fault}
      (hparams : s.params = before ++ t :: after) (hvalues : vs = us ++ v :: rest)
      (hrest : rest.length = after.length) (hbefore : Args.Converts w before us xs w₁)
      (hfault : Run.decode t v w₁ = (.error fault, w₂)) :
      Evaluates name s body vs w (.error (fault.ofArgument name s.text before.length))
        (w₂.withHeap (Args.giveUp before xs w₂.heap))
  | bodyFault {xs : Args s.params} {w₁ w₂ : World κ} {fault : Fault}
      (hargs : Args.Converts w s.params vs xs w₁) (hbody : body xs w₁ = (.error fault, w₂)) :
      Evaluates name s body vs w (.error fault)
        (w₂.withHeap ((Args.references s.params xs).foldl Heap.release w₂.heap))
  | result {xs : Args s.params} {w₁ w₂ w₃ : World κ} {y : s.result.Carrier}
      {answer : Except Fault Value} (hargs : Args.Converts w s.params vs xs w₁)
      (hbody : body xs w₁ = (.ok y, w₂))
      (hencode : Run.encode s.result y
        (w₂.withHeap ((Args.references s.params xs).foldl Heap.release w₂.heap)) = (answer, w₃)) :
      Evaluates name s body vs w answer w₃

/-! ## Conversion of arguments -/

namespace Args

variable {w w' : World κ} {ts : List ValueType} {vs : List Value} {xs : Args ts}

theorem Converts.length_eq (h : Converts w ts vs xs w') : vs.length = ts.length := by
  induction h with
  | nil => rfl
  | cons _ _ ih => rw [List.length_cons, List.length_cons, ih]

/-- Arguments of the right number are all converted, or there is a first one that is not. -/
theorem converts_or_fails (w : World κ) (h : vs.length = ts.length) :
    (∃ xs w', Converts w ts vs xs w') ∨
    ∃ before t after us v rest, ts = before ++ t :: after ∧ vs = us ++ v :: rest ∧
      rest.length = after.length ∧ ∃ xs w₁ fault w₂, Converts w before us xs w₁ ∧
        Run.decode t v w₁ = (.error fault, w₂) := by
  induction ts generalizing vs w with
  | nil =>
      obtain rfl := List.length_eq_zero_iff.mp h
      exact .inl ⟨(), w, .nil w⟩
  | cons t ts ih =>
      cases vs with
      | nil => cases h
      | cons v vs =>
          have hlength : vs.length = ts.length := Nat.succ.inj h
          rcases hdecode : Run.decode t v w with ⟨fault | x, w₁⟩
          · exact .inr ⟨[], t, ts, [], v, vs, rfl, rfl, hlength, (), w, fault, w₁, .nil w, hdecode⟩
          · obtain ⟨xs, w', htail⟩ | ⟨before, t', after, us, v', rest, hts, hvs, hrest, xs, w₂, fault,
              w₃, hbefore, hfault⟩ := ih w₁ hlength
            · exact .inl ⟨(x, xs), w', .cons hdecode htail⟩
            · refine .inr ⟨t :: before, t', after, v :: us, v', rest, ?_, ?_, hrest, (x, xs), w₂,
                fault, w₃, .cons hdecode hbefore, hfault⟩
              · rw [hts, List.cons_append]
              · rw [hvs, List.cons_append]

end Args

namespace Run

variable {w w₁ w₂ : World κ} {name signature : String} {index : Nat}

theorem blameArg_of_ok {α : Type} {body : Run κ α} {a : α} (h : body w = (.ok a, w₁)) :
    blameArg name signature index body w = (.ok a, w₁) := by
  unfold blameArg
  rw [run_bind_of_ok (attempt_of_ok h)]
  rfl

theorem blameArg_of_fault {α : Type} {body : Run κ α} {fault : Fault}
    (h : body w = (.error fault, w₁)) :
    blameArg name signature index body w =
      (.error (fault.ofArgument name signature index), w₁) := by
  unfold blameArg
  cases fault with
  | error cause =>
      rw [run_bind_of_ok (attempt_of_error h)]
      rfl
  | panic cause =>
      have hpanic : attempt body w = (.error (.panic cause), w₁) := by
        unfold attempt
        rw [h]
      exact run_bind_of_error hpanic

/-- Arguments that can be converted are. -/
theorem decodeArgs_of_converts {ts : List ValueType} {vs : List Value} {xs : Args ts}
    (h : Args.Converts w ts vs xs w₁) (index : Nat) :
    decodeArgs name signature index ts vs w = (.ok xs, w₁) := by
  induction h generalizing index with
  | nil => rfl
  | cons hhead _ ih =>
      unfold decodeArgs
      rw [List.head?_cons, Option.getD_some, List.tail_cons, run_bind_of_ok (blameArg_of_ok hhead),
        run_bind_of_ok (releasingOnFault_of_ok (ih (index + 1)))]
      rfl

/-- The first argument that cannot be converted is the reason, and what the ones before it have
brought is given up. -/
theorem decodeArgs_of_fault {before : List ValueType} {t : ValueType} {us : List Value} {v : Value}
    {xs : Args before} {fault : Fault} (hbefore : Args.Converts w before us xs w₁)
    (hfault : decode t v w₁ = (.error fault, w₂)) (name signature : String) (index : Nat)
    (after : List ValueType) (rest : List Value) :
    decodeArgs name signature index (before ++ t :: after) (us ++ v :: rest) w =
      (.error (fault.ofArgument name signature (index + before.length)),
        w₂.withHeap (Args.giveUp before xs w₂.heap)) := by
  induction hbefore generalizing index with
  | nil =>
      rw [List.nil_append, List.nil_append, decodeArgs]
      exact run_bind_of_error (blameArg_of_fault hfault)
  | @cons w w₁ _ t' before v' us x xs hhead _ ih =>
      have htail : releasingOnFault (t'.references x)
          (decodeArgs name signature (index + 1) (before ++ t :: after) (us ++ v :: rest)) w₁ = _ :=
        releasingOnFault_of_error (ih hfault (index + 1))
      rw [List.cons_append, List.cons_append, decodeArgs, List.head?_cons, Option.getD_some,
        List.tail_cons, run_bind_of_ok (blameArg_of_ok hhead), run_bind_of_error htail,
        List.length_cons, Nat.add_assoc, Nat.add_comm 1]
      rfl

/-! ## Calls -/

variable {s : Signature} {body : Args s.params → Run κ s.result.Carrier} {vs : List Value}
  {answer : Except Fault Value}

/-- A call ends as the rules say. -/
theorem Evaluates.callTyped_eq (h : Evaluates name s body vs w answer w₁) :
    callTyped name s body vs w = (answer, w₁) := by
  unfold callTyped
  cases h with
  | argCount hcount =>
      rw [if_pos hcount]
      rfl
  | @argConversion before after t us rest v xs _ _ fault hparams hvalues hrest hbefore hfault =>
      have hcount : ¬ vs.length ≠ s.params.length := by
        have hus := hbefore.length_eq
        rw [hparams, hvalues, List.length_append, List.length_append, hus, List.length_cons,
          List.length_cons, hrest]
        exact not_not_intro rfl
      have hargs := decodeArgs_of_fault hbefore hfault name s.text 0 after rest
      rw [← hparams, ← hvalues, Nat.zero_add] at hargs
      rw [if_neg hcount]
      exact run_bind_of_error hargs
  | bodyFault hargs hbody =>
      rw [if_neg (not_not_intro hargs.length_eq), run_bind_of_ok (decodeArgs_of_converts hargs 0)]
      exact run_bind_of_error (releasing_of_error hbody)
  | result hargs hbody hencode =>
      rw [if_neg (not_not_intro hargs.length_eq), run_bind_of_ok (decodeArgs_of_converts hargs 0),
        run_bind_of_ok (releasing_of_ok hbody)]
      exact hencode

/-- The rules leave no call out. -/
theorem exists_evaluates (name : String) (s : Signature)
    (body : Args s.params → Run κ s.result.Carrier) (vs : List Value) (w : World κ) :
    ∃ answer w₁, Evaluates name s body vs w answer w₁ := by
  by_cases hcount : vs.length = s.params.length
  · obtain ⟨xs, w₁, hargs⟩ | ⟨before, t, after, us, v, rest, hparams, hvalues, hrest, xs, w₁, fault,
      w₂, hbefore, hfault⟩ := Args.converts_or_fails w hcount
    · rcases hbody : body xs w₁ with ⟨fault | y, w₂⟩
      · exact ⟨_, _, .bodyFault hargs hbody⟩
      · exact ⟨_, _, .result hargs hbody rfl⟩
    · exact ⟨_, _, .argConversion hparams hvalues hrest hbefore hfault⟩
  · exact ⟨_, _, .argCount hcount⟩

/-- A call ends in the one way in which the rules let it end. -/
theorem evaluates_iff : Evaluates name s body vs w answer w₁ ↔
    callTyped name s body vs w = (answer, w₁) := by
  constructor
  · exact Evaluates.callTyped_eq
  · intro hcall
    obtain ⟨answer', w', h⟩ := exists_evaluates name s body vs w
    rw [h.callTyped_eq] at hcall
    cases hcall
    exact h

end Run

/-! ## Functions -/

namespace FunctionCode

variable {ε : Type} [Callable ε]

/-- What code does when it is called. -/
def call (invoke : Invoke (FunctionCode ε)) : FunctionCode ε → List Value → Run (FunctionCode ε) Value
  | .builtin b => b.run
  | .program e => Callable.call invoke e

/-- The code is that of a typed function, whose body may call others. -/
def IsTyped (code : FunctionCode ε) (name : String) (s : Signature)
    (body : Invoke (FunctionCode ε) → Args s.params → Run (FunctionCode ε) s.result.Carrier) :
    Prop :=
  ∀ invoke vs, code.call invoke vs = Run.callTyped name s (body invoke) vs

end FunctionCode

namespace Function

variable {ε : Type} [Callable ε] {w w' : World (FunctionCode ε)} {f : ObjId}
  {code : FunctionCode ε} {finalizer : Option Hook}

theorem invokeWithin_code (depth : Nat) (hcontent : w.payload? f = some (.function code finalizer))
    (vs : List Value) :
    invokeWithin (depth + 1) (some f) vs w = code.call (invokeWithin depth) vs w := by
  unfold invokeWithin
  rw [run_get_bind, hcontent]
  cases code <;> rfl

/-- A call of a typed function holds it meanwhile. -/
theorem invoke_of_isTyped {name : String} {s : Signature}
    {body : Invoke (FunctionCode ε) → Args s.params → Run (FunctionCode ε) s.result.Carrier}
    (htyped : code.IsTyped name s body)
    (hcontent : w.payload? f = some (.function code finalizer)) (vs : List Value) :
    invoke (some f) vs w =
      Run.releasing [f] (Run.callTyped name s (body (invokeWithin (maxDepth - 1))) vs)
        (w.withHeap (w.heap.retain f)) := by
  have hheld : (w.withHeap (w.heap.retain f)).payload? f = some (.function code finalizer) :=
    World.payload?_grown (Heap.grown_retain w.heap f) hcontent
  have hretain : Run.retainRef (some f) w = (.ok (), w.withHeap (w.heap.retain f)) := rfl
  have hcall : invokeWithin maxDepth (some f) vs (w.withHeap (w.heap.retain f)) =
      Run.callTyped name s (body (invokeWithin (maxDepth - 1))) vs
        (w.withHeap (w.heap.retain f)) := by
    rw [show maxDepth = maxDepth - 1 + 1 from rfl, invokeWithin_code _ hheld, htyped]
    rfl
  unfold invoke
  rw [run_bind_of_ok hretain]
  unfold Run.releasing Run.andFinally
  rw [Option.toList_some, hcall]

/-- A typed function is exact: it is held while it is called, and the call ends as the rules say. -/
theorem invoke_iff_evaluates {name : String} {s : Signature}
    {body : Invoke (FunctionCode ε) → Args s.params → Run (FunctionCode ε) s.result.Carrier}
    (htyped : code.IsTyped name s body)
    (hcontent : w.payload? f = some (.function code finalizer)) (vs : List Value)
    (answer : Except Fault Value) :
    invoke (some f) vs w = (answer, w') ↔
      ∃ w₁, Run.Evaluates name s (body (invokeWithin (maxDepth - 1))) vs
          (w.withHeap (w.heap.retain f)) answer w₁ ∧
        w' = w₁.withHeap (w₁.heap.release f) := by
  rw [invoke_of_isTyped htyped hcontent]
  rcases hcall : Run.callTyped name s (body (invokeWithin (maxDepth - 1))) vs
    (w.withHeap (w.heap.retain f)) with ⟨answer', w₁⟩
  have hrules := Run.evaluates_iff.mpr hcall
  have hend : Run.releasing [f] (Run.callTyped name s (body (invokeWithin (maxDepth - 1))) vs)
      (w.withHeap (w.heap.retain f)) = (answer', w₁.withHeap (w₁.heap.release f)) := by
    unfold Run.releasing Run.andFinally
    rw [hcall]
    rfl
  rw [hend]
  constructor
  · intro heq
    cases heq
    exact ⟨w₁, hrules, rfl⟩
  · rintro ⟨w₂, h, rfl⟩
    have heq := hcall.symm.trans (Run.evaluates_iff.mp h)
    cases heq
    rfl

/-- A world with a function that adds two numbers. -/
def adder : World (FunctionCode SampleCode) :=
  (make (.program (.function .add "add")) none World.initial).2

theorem isTyped_add (name : String) :
    (FunctionCode.program (SampleCode.function .add name)).IsTyped name
      ⟨[.int .i64, .int .i64], .int .i64, false⟩ fun _ xs => pure (MachineInt.add xs.1 xs.2.1) :=
  fun _ _ => rfl

/-- It is called with too few arguments, with one that is not a number, and as it should be. -/
theorem invoke_adder :
    adder.payload? ⟨0⟩ = some (.function (.program (.function .add "add")) none) ∧
    (∃ w, invoke (some ⟨0⟩) [.int 3] adder =
      (.error (.error (.argCount "add" "(0: i64, 1: i64) -> i64" 2 1)), w)) ∧
    (∃ w, invoke (some ⟨0⟩) [.int 3, .text "x"] adder =
      (.error (.error (.argConversion "add" "(0: i64, 1: i64) -> i64" 1
        (.typeMismatch "i64" "str"))), w)) ∧
    ∃ w, invoke (some ⟨0⟩) [.int 3, .int 4] adder = (.ok (.int 7), w) := by
  have hcontent : adder.payload? ⟨0⟩ = some (.function (.program (.function .add "add")) none) :=
    rfl
  let held := adder.withHeap (adder.heap.retain ⟨0⟩)
  have hbefore : Args.Converts held [.int .i64] [.int 3] (3, ()) held := .cons rfl (.nil held)
  have htext : Run.decode (.int .i64) (.text "x") held =
      (.error (.error (.typeMismatch "i64" "str")), held) := rfl
  have hparams : [ValueType.int .i64, .int .i64] = [.int .i64] ++ .int .i64 :: [] := rfl
  have hvalues : [Value.int 3, .text "x"] = [.int 3] ++ .text "x" :: [] := rfl
  have hboth : Args.Converts held [.int .i64, .int .i64] [.int 3, .int 4] (3, 4, ()) held :=
    .cons rfl (.cons rfl (.nil held))
  refine ⟨hcontent, ?_, ?_, ?_⟩
  · exact ⟨_, (invoke_iff_evaluates (isTyped_add "add") hcontent _ _).mpr
      ⟨held, .argCount (by decide), rfl⟩⟩
  · exact ⟨_, (invoke_iff_evaluates (isTyped_add "add") hcontent _ _).mpr
      ⟨_, .argConversion hparams hvalues rfl hbefore htext, rfl⟩⟩
  · exact ⟨_, (invoke_iff_evaluates (isTyped_add "add") hcontent _ _).mpr
      ⟨held, .result hboth rfl rfl, rfl⟩⟩

end Function

end ObjectRuntime
