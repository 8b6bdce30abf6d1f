import ObjectRuntime.Function.Code
import ObjectRuntime.Function.Typed
import ObjectRuntime.Proofs.Object.Conversion
set_option autoImplicit false

/-!
# Calls conserve references

A call borrows the function and its arguments, and its result is the caller's (`Function.Conserving`).
If the code of a program keeps to that wherever the calls that it makes do, all calls of its
functions do, however deeply they are nested.  A typed function keeps to it if its body does.
-/

namespace ObjectRuntime

open Run (Conserves Borrowed)
open World (Balanced Since)

namespace Function

section

variable {κ : Type} {P : κ → Prop} {w : World κ} {others : List ObjId}

/-- A way of calling functions that borrows the function and its arguments, and owns the result. -/
def Conserving (P : κ → Prop) (invoke : Invoke κ) : Prop :=
  ∀ {w : World κ} {others : List ObjId} {f : Ref} {args : List Value}, w.Balanced P others →
    (∀ id, f = some id → w.heap.Reachable others id) → (∀ v ∈ args, Borrowed w others v) →
      Conserves P w others (·.object?.toList) [] (invoke f args)

/-- A new function of a code that is admitted. -/
theorem conserves_make {code : κ} {finalizer : Option Hook} (hb : w.Balanced P others)
    (hcode : P code) : Conserves P w others (fun id => [id]) [] (make code finalizer) :=
  Run.conserves_create [] hb hcode

end

variable {ε : Type}

/-- The code belongs to a program. -/
def IsProgram (code : FunctionCode ε) : Prop := ∃ e, code = .program e

/-- The code of a program conserves references if the calls that it makes do. -/
def CodeConserving (ε : Type) [Callable ε] : Prop :=
  ∀ {invoke : Invoke (FunctionCode ε)}, Conserving IsProgram invoke →
    ∀ {w : World (FunctionCode ε)} {others : List ObjId} {args : List Value} (e : ε),
      w.Balanced IsProgram others → (∀ v ∈ args, Borrowed w others v) →
        Conserves IsProgram w others (·.object?.toList) [] (Callable.call invoke e args)

variable [Callable ε]

/-- Calls within a depth. -/
theorem conserving_invokeWithin (hcode : CodeConserving ε) :
    ∀ depth, Conserving IsProgram (invokeWithin (ε := ε) depth)
  | 0, w, others, f, args, hb, _, _ => by
      cases f with
      | none => exact Run.conserves_throw hb
      | some id => exact Run.conserves_throw hb
  | depth + 1, w, others, f, args, hb, _, hargs => by
      cases f with
      | none => exact Run.conserves_throw hb
      | some id =>
          refine Run.conserves_get ?_
          split
          · rename_i b finalizer hcontent
            obtain ⟨e, he⟩ : IsProgram (.builtin b : FunctionCode ε) := hb.allowed hcontent
            cases he
          · exact hcode (conserving_invokeWithin hcode depth) _ hb hargs
          · exact Run.conserves_throw hb

/-- Calls. -/
theorem conserving_invoke (hcode : CodeConserving ε) :
    Conserving IsProgram (invoke : Invoke (FunctionCode ε)) := by
  intro w others f args hb hf hargs
  refine (Run.conserves_retainRef [] [] hb hf).bind fun _ w₁ _ hsince hb₁ => ?_
  rw [List.append_nil] at hb₁
  refine (conserving_invokeWithin hcode maxDepth hb₁ (fun id hid => ?_) fun v hv => ?_).releasing
  · exact .of_mem (List.mem_append_left _ (Option.mem_toList.mpr hid))
  · exact ((hargs v hv).since hsince).append

end Function

/-! ## Typed functions -/

namespace Run

variable {κ α : Type} {P : κ → Prop} {w : World κ} {others keeps : List ObjId}

theorem Conserves.blameArg {name signature : String} {index : Nat} {gives : α → List ObjId}
    {body : Run κ α} (h : Conserves P w others gives [] body) :
    Conserves P w others gives [] (Run.blameArg name signature index body) := by
  refine h.attempt.bind fun answer w₁ _ _ hb₁ => ?_
  cases answer with
  | ok a => exact conserves_pure hb₁
  | error cause => exact conserves_throw hb₁

/-- The members that arguments are converted to are the caller's. -/
theorem conserves_decodeArgs {name signature : String} :
    ∀ (ts : List ValueType) {index : Nat} {vs : List Value} {w : World κ} {others : List ObjId},
      w.Balanced P others → (∀ v ∈ vs, Borrowed w others v) →
        Conserves P w others (Args.references ts) [] (decodeArgs name signature index ts vs)
  | [], _, _, _, _, hb, _ => conserves_pure hb
  | t :: ts, index, vs, w, others, hb, hvs => by
      have hhead : Borrowed w others (vs.head?.getD .null) := by
        cases vs with
        | nil => exact fun _ hid => nomatch hid
        | cons v vs => exact hvs v List.mem_cons_self
      refine (conserves_decode t hb hhead).blameArg.bind fun x w₁ _ hsince hb₁ => ?_
      have hrest : Conserves P w₁ (t.references x ++ others) (Args.references ts) []
          (decodeArgs name signature (index + 1) ts vs.tail) :=
        conserves_decodeArgs ts hb₁ fun v hv =>
          ((hvs v (List.mem_of_mem_tail hv)).since hsince).append
      refine hrest.releasingOnFault.bind fun xs w₂ _ _ hb₂ => conserves_pure ?_
      exact hb₂.perm (List.perm_append_comm.append_right others)

/-- A typed function conserves references if its body does. -/
theorem conserves_callTyped {name : String} {s : Signature}
    {body : Args s.params → Run κ s.result.Carrier} {vs : List Value}
    (hb : w.Balanced P others) (hvs : ∀ v ∈ vs, Borrowed w others v)
    (hbody : ∀ args w', Since w others w' →
      w'.Balanced P (Args.references s.params args ++ others) →
        Conserves P w' (Args.references s.params args ++ others) s.result.references [] (body args)) :
    Conserves P w others (·.object?.toList) [] (callTyped name s body vs) := by
  rw [callTyped]
  split
  · exact conserves_throw hb
  · refine (conserves_decodeArgs s.params hb hvs).bind fun args w₁ _ hsince hb₁ => ?_
    refine (hbody args w₁ hsince hb₁).releasing.bind fun result w₂ _ _ hb₂ => ?_
    exact conserves_encode s.result result hb₂

end Run

end ObjectRuntime
