import ObjectRuntime.Proofs.Function.Calls
import ObjectRuntime.Proofs.Function.Returning
import ObjectRuntime.Sample.Callbacks
set_option autoImplicit false

/-!
# Functions called as closures

The arguments of a closure go over to values one after another, and a typed function converts them
back: it is called with what comes back for them.  Its result takes the same way to the caller.
-/

namespace ObjectRuntime

open Run (Borrowed travelClasses)
open World (Balanced Proceeds Since)

variable {κ : Type} {P : κ → Prop} {w w₀ w' : World κ} {others held : List ObjId}

/-! ## Lists of arguments -/

namespace Args

/-- All arguments can be passed. -/
def Passable (w : World κ) : (ts : List ValueType) → Args ts → Prop
  | [], _ => True
  | t :: ts, (x, xs) => t.Passable w x ∧ Passable w ts xs

/-- What has become of arguments. -/
def Carried (w₀ w : World κ) : (ts : List ValueType) → Args ts → List Value → Prop
  | [], _, vs => vs = []
  | t :: ts, (x, xs), vs =>
    ∃ v rest, vs = v :: rest ∧ t.Carried w₀ w x v ∧ Carried w₀ w ts xs rest

/-- What comes back for arguments. -/
def Returned (w w' : World κ) : (ts : List ValueType) → Args ts → Args ts → Prop
  | [], _, _ => True
  | t :: ts, (x, xs), (y, ys) => t.Returned w w' x y ∧ Returned w w' ts xs ys

theorem Passable.later {ts : List ValueType} {xs : Args ts} (h : Passable w ts xs)
    (hproceeds : w.Proceeds others w') (hb : w.Balanced P held) (hsub : ∀ x ∈ others, x ∈ held)
    (hxs : ∀ id ∈ references ts xs, w.heap.Reachable others id) : Passable w' ts xs := by
  induction ts with
  | nil => exact trivial
  | cons t ts ih =>
      obtain ⟨x, xs⟩ := xs
      refine ⟨h.1.later hproceeds hb hsub fun id hid => hxs id ?_,
        ih h.2 fun id hid => hxs id ?_⟩
      · exact List.mem_append_left _ hid
      · exact List.mem_append_right _ hid

theorem Returned.later {ts : List ValueType} {xs ys : Args ts} (h : Returned w₀ w ts xs ys)
    (hproceeds : w.Proceeds others w') (hb : w.Balanced P held) (hsub : ∀ x ∈ others, x ∈ held)
    (hys : ∀ id ∈ references ts ys, w.heap.Reachable others id) : Returned w₀ w' ts xs ys := by
  induction ts with
  | nil => exact trivial
  | cons t ts ih =>
      obtain ⟨x, xs⟩ := xs
      obtain ⟨y, ys⟩ := ys
      refine ⟨h.1.later hproceeds hb hsub fun id hid => hys id ?_,
        ih h.2 fun id hid => hys id ?_⟩
      · exact List.mem_append_left _ hid
      · exact List.mem_append_right _ hid

theorem Carried.later {ts : List ValueType} {xs : Args ts} {vs : List Value}
    (h : Carried w₀ w ts xs vs) (hproceeds : w.Proceeds others w') (hb : w.Balanced P held)
    (hsub : ∀ x ∈ others, x ∈ held) (hvs : ∀ v ∈ vs, Borrowed w others v) :
    Carried w₀ w' ts xs vs := by
  induction ts generalizing vs with
  | nil => exact h
  | cons t ts ih =>
      obtain ⟨x, xs⟩ := xs
      obtain ⟨v, rest, rfl, hv, hrest⟩ := h
      obtain ⟨hhead, htail⟩ := List.forall_mem_cons.mp hvs
      exact ⟨v, rest, rfl, hv.later hproceeds hb hsub hhead, ih hrest htail⟩

theorem Carried.since {ts : List ValueType} {xs : Args ts} {vs : List Value}
    (h : Carried w w' ts xs vs) (hproceeds : w₀.Proceeds others w) (hb : w₀.Balanced P held)
    (hsub : ∀ x ∈ others, x ∈ held) (hxs : ∀ id ∈ references ts xs, w₀.heap.Reachable others id)
    (hpass : Passable w₀ ts xs) : Carried w₀ w' ts xs vs := by
  induction ts generalizing vs with
  | nil => exact h
  | cons t ts ih =>
      obtain ⟨x, xs⟩ := xs
      obtain ⟨v, rest, rfl, hv, hrest⟩ := h
      refine ⟨v, rest, rfl, hv.since hproceeds hb hsub (fun id hid => hxs id ?_) hpass.1,
        ih hrest (fun id hid => hxs id ?_) hpass.2⟩
      · exact List.mem_append_left _ hid
      · exact List.mem_append_right _ hid

theorem Carried.length_eq {ts : List ValueType} {xs : Args ts} {vs : List Value}
    (h : Carried w₀ w ts xs vs) : vs.length = ts.length := by
  induction ts generalizing vs with
  | nil =>
      cases (show vs = [] from h)
      rfl
  | cons t ts ih =>
      obtain ⟨x, xs⟩ := xs
      obtain ⟨v, rest, rfl, -, hrest⟩ := h
      rw [List.length_cons, List.length_cons, ih hrest]

end Args

namespace Run

/-- Arguments that can be passed go over to values that carry them. -/
theorem encodeArgs_of_passable {ts : List ValueType} {xs : Args ts}
    (hts : ∀ t ∈ ts, t.isPassable = true) (hxs : Args.Passable w ts xs)
    (hserves : w.types.Serves travelClasses)
    (hb : w.Balanced P (Args.references ts xs ++ others)) :
    ∃ vs w', encodeArgs ts xs w = (.ok vs, w') ∧ Args.Carried w w' ts xs vs ∧
      w'.types.Serves travelClasses ∧ w.Proceeds others w' ∧
      w'.Balanced P (vs.filterMap Value.object? ++ others) := by
  induction ts generalizing w others with
  | nil => exact ⟨[], w, rfl, rfl, hserves, .refl hserves.regular others, hb⟩
  | cons t ts ih =>
      obtain ⟨x, xs⟩ := xs
      obtain ⟨ht, hts⟩ := List.forall_mem_cons.mp hts
      obtain ⟨hx, hxs⟩ := hxs
      have hb₀ : w.Balanced P (t.references x ++ (Args.references ts xs ++ others)) := by
        rw [← List.append_assoc]
        exact hb
      obtain ⟨v, w₁, hrun, hcarried, hserves₁, hproceeds, hb₁⟩ :=
        encode_of_passable ht hx hserves hb₀
      -- the other arguments are held while the first one goes over
      have hrest : ∀ id ∈ Args.references ts xs,
          w.heap.Reachable (Args.references ts xs ++ others) id :=
        fun id hid => .of_mem (List.mem_append_left _ hid)
      have hsub : ∀ id ∈ Args.references ts xs ++ others,
          id ∈ t.references x ++ (Args.references ts xs ++ others) :=
        fun id hid => List.mem_append_right _ hid
      have hxs₁ : Args.Passable w₁ ts xs := hxs.later hproceeds hb₀ hsub hrest
      have hb₁' : w₁.Balanced P (Args.references ts xs ++ (v.object?.toList ++ others)) :=
        hb₁.perm (List.perm_append_comm_assoc _ _ _)
      obtain ⟨vs, w₂, hrun₂, hcarried₂, hserves₂, hproceeds₂, hb₂⟩ := ih hts hxs₁ hserves₁ hb₁'
      have hborrowed : Borrowed w₁ (v.object?.toList ++ others) v := fun id hid =>
        .of_mem (List.mem_append_left _ (Option.mem_toList.mpr hid))
      have hkept := hcarried.later hproceeds₂ hb₁' (fun id hid => List.mem_append_right _ hid)
        hborrowed
      have hobjects : (v.asArgument :: vs).filterMap Value.object? =
          v.object?.toList ++ vs.filterMap Value.object? := by
        rw [List.filterMap_cons, Value.retags_asArgument.object?_eq]
        cases v.object? <;> rfl
      refine ⟨v.asArgument :: vs, w₂, ?_, ⟨_, vs, rfl, hkept.retag Value.retags_asArgument ht,
        hcarried₂.since hproceeds hb₀ hsub hrest hxs⟩, hserves₂,
        hproceeds.of_append.trans hproceeds₂.of_append, ?_⟩
      · unfold encodeArgs
        rw [run_bind_of_ok (releasingOnFault_of_ok hrun),
          run_bind_of_ok (releasingOnFault_of_ok hrun₂)]
        rfl
      · rw [hobjects, List.append_assoc]
        exact hb₂.perm (List.perm_append_comm_assoc _ _ _)

/-- A typed function is called with what comes back for the arguments. -/
theorem decodeArgs_of_passable (name signature : String) (index : Nat) {ts : List ValueType}
    {xs : Args ts} {vs : List Value} (h : Args.Carried w₀ w ts xs vs)
    (hts : ∀ t ∈ ts, t.isPassable = true) (hxs : Args.Passable w₀ ts xs)
    (hregular : w.types.Regular) (hb : w.Balanced P others) (hvs : ∀ v ∈ vs, Borrowed w others v)
    (hbase : w₀.heap.cells.size ≤ w.heap.cells.size) :
    ∃ ys w', decodeArgs name signature index ts vs w = (.ok ys, w') ∧ w'.types = w.types ∧
      Args.Returned w₀ w' ts xs ys ∧ Args.Passable w' ts ys ∧ w.Proceeds others w' ∧
      w'.Balanced P (Args.references ts ys ++ others) := by
  induction ts generalizing w others vs index with
  | nil => exact ⟨(), w, rfl, rfl, trivial, trivial, .refl hregular others, hb⟩
  | cons t ts ih =>
      obtain ⟨x, xs⟩ := xs
      obtain ⟨v, rest, rfl, hcarried, hrest⟩ := h
      obtain ⟨ht, hts⟩ := List.forall_mem_cons.mp hts
      obtain ⟨hv, hvs⟩ := List.forall_mem_cons.mp hvs
      obtain ⟨y, w₁, hrun, htypes, hback, hpass, hproceeds, hb₁⟩ :=
        decode_of_passable hcarried ht hxs.1 hregular hb hv hbase
      have hself : ∀ id ∈ others, id ∈ others := fun _ hid => hid
      have hrest₁ := hrest.later hproceeds hb hself hvs
      have hvs₁ : ∀ v ∈ rest, Borrowed w₁ (t.references y ++ others) v :=
        fun v hmem => ((hvs v hmem).since hproceeds.since).append
      obtain ⟨ys, w₂, hrun₂, htypes₂, hback₂, hpass₂, hproceeds₂, hb₂⟩ :=
        ih (index + 1) hrest₁ hts hxs.2 hproceeds.later.regular hb₁ hvs₁
          (hbase.trans hproceeds.size_le)
      have hheld : ∀ id ∈ t.references y, w₁.heap.Reachable (t.references y ++ others) id :=
        fun id hid => .of_mem (List.mem_append_left _ hid)
      have hall : ∀ id ∈ t.references y ++ others, id ∈ t.references y ++ others :=
        fun _ hid => hid
      have hblame : blameArg name signature index (decode t v) w = (.ok y, w₁) := by
        unfold blameArg
        rw [run_bind_of_ok (attempt_of_ok hrun)]
        rfl
      refine ⟨(y, ys), w₂, ?_, htypes₂.trans htypes,
        ⟨hback.later hproceeds₂ hb₁ hall hheld, hback₂⟩,
        ⟨hpass.later hproceeds₂ hb₁ hall hheld, hpass₂⟩, hproceeds.trans hproceeds₂.of_append, ?_⟩
      · unfold decodeArgs
        rw [List.head?_cons, Option.getD_some, List.tail_cons, run_bind_of_ok hblame,
          run_bind_of_ok (releasingOnFault_of_ok hrun₂)]
        rfl
      · refine hb₂.perm ?_
        rw [Args.references, List.append_assoc]
        exact List.perm_append_comm_assoc _ _ _

end Run

/-! ## Typed functions -/

namespace Function

/-- A body that keeps to the rules: it borrows its arguments and owns its result, which can be passed
as they can, and the classes that tell how objects travel can be had afterwards. -/
structure Faithful (P : κ → Prop) (params : List ValueType) (result : ValueType)
    (body : Args params → Run κ result.Carrier) : Prop where
  keeps : ∀ {w w' : World κ} {others : List ObjId} {xs : Args params} {y : result.Carrier},
    w.Balanced P (Args.references params xs ++ others) → w.types.Serves travelClasses →
    Args.Passable w params xs → body xs w = (.ok y, w') →
    w.Proceeds (Args.references params xs ++ others) w' ∧
      w'.Balanced P (result.references y ++ (Args.references params xs ++ others)) ∧
      w'.types.Serves travelClasses ∧ result.Passable w' y

/-- A body that returns the reference it is given keeps to the rules. -/
theorem faithful_retaining (P : κ → Prop) (t : RefType) :
    Faithful P [.ref t] (.ref t) fun xs => do Run.retainRef xs.1; return xs.1 where
  keeps {w w' others xs y} hb hserves hxs hrun := by
    have hself : ∀ id ∈ Args.references [.ref t] xs ++ others,
        id ∈ Args.references [.ref t] xs ++ others := fun _ hid => hid
    have hreach : ∀ id ∈ (ValueType.ref t).references xs.1,
        w.heap.Reachable (Args.references [.ref t] xs ++ others) id := fun id hid =>
      .of_mem (List.mem_append_left _ (List.mem_append_left _ hid))
    obtain ⟨_, w₁, hretain, hrest⟩ := run_bind_eq_ok.mp hrun
    cases hrest
    have hconserves : Run.Conserves P w (Args.references [.ref t] xs ++ others)
        (fun _ => xs.1.toList ++ []) [] (Run.retainRef xs.1) :=
      Run.conserves_retainRef [] [] hb fun id hid => hreach id (Option.mem_toList.mpr hid)
    obtain ⟨hproceeds, hb'⟩ :=
      hconserves.proceeds (Run.advances_retainRef _) hserves.regular hretain
    have htypes : w'.types = w.types := by
      obtain ⟨_ | id, u⟩ := xs <;> (cases hretain; rfl)
    rw [List.append_nil] at hb'
    exact ⟨hproceeds, hb', htypes ▸ hserves, hxs.1.later hproceeds hb hself hreach⟩

/-- The result of a body has gone over to a value, which the caller owns. -/
structure Answers (P : κ → Prop) (w : World κ) (others : List ObjId) (t : ValueType)
    (w₁ : World κ) (y : t.Carrier) (v : Value) (w₂ : World κ) : Prop where
  passable : t.Passable w₁ y
  carried : t.Carried w₁ w₂ y v
  size : w₁.heap.cells.size ≤ w₂.heap.cells.size
  serves : w₂.types.Serves travelClasses
  proceeds : w.Proceeds others w₂
  balanced : w₂.Balanced P (v.object?.toList ++ others)

theorem Answers.before {w₁ w₂ : World κ} {t : ValueType} {y : t.Carrier} {v : Value}
    (h : Answers P w' others t w₁ y v w₂) (hproceeds : w.Proceeds others w') :
    Answers P w others t w₁ y v w₂ :=
  ⟨h.passable, h.carried, h.size, h.serves, hproceeds.trans h.proceeds, h.balanced⟩

/-- References that were held over a call are given up. -/
theorem Answers.release {w₁ w₂ : World κ} {t : ValueType} {y : t.Carrier} {v : Value}
    {ids : List ObjId} (h : Answers P w (ids ++ others) t w₁ y v w₂) :
    Answers P w others t w₁ y v { w₂ with heap := ids.foldl Heap.release w₂.heap } := by
  have hb : w₂.Balanced P (ids ++ (v.object?.toList ++ others)) :=
    h.balanced.perm (List.perm_append_comm_assoc _ _ _)
  have hv : Borrowed w₂ (v.object?.toList ++ others) v := fun id hid =>
    .of_mem (List.mem_append_left _ (Option.mem_toList.mpr hid))
  obtain ⟨hreleased, hb'⟩ := Run.proceeds_releases h.proceeds.later.regular hb
  exact ⟨h.passable,
    h.carried.later hreleased hb (fun id hid => List.mem_append_right _ hid) hv,
    h.size.trans hreleased.size_le, h.serves,
    h.proceeds.of_append.trans hreleased.of_append, hb'⟩

/-- The result of a body goes over to a value after the arguments have been given up. -/
theorem encode_of_faithful {params : List ValueType} {result : ValueType}
    {body : Args params → Run κ result.Carrier} {xs : Args params} {y : result.Carrier}
    (hbody : Faithful P params result body) (hresult : result.isPassable = true)
    (hb : w.Balanced P (Args.references params xs ++ others))
    (hserves : w.types.Serves travelClasses) (hxs : Args.Passable w params xs)
    (hrun : body xs w = (.ok y, w')) :
    ∃ v w'', (do
        let y ← Run.releasing (Args.references params xs) (body xs)
        Run.encode result y) w = (.ok v, w'') ∧ Answers P w others result w' y v w'' := by
  obtain ⟨hproceeds, hb₁, hserves₁, hpass⟩ := hbody.keeps hb hserves hxs hrun
  have hb₁' : w'.Balanced P (Args.references params xs ++ (result.references y ++ others)) :=
    hb₁.perm (List.perm_append_comm_assoc _ _ _)
  have hsub : ∀ id ∈ result.references y ++ others,
      id ∈ Args.references params xs ++ (result.references y ++ others) :=
    fun id hid => List.mem_append_right _ hid
  have hy : ∀ id ∈ result.references y, w'.heap.Reachable (result.references y ++ others) id :=
    fun id hid => .of_mem (List.mem_append_left _ hid)
  obtain ⟨hreleased, hb₂⟩ := Run.proceeds_releases hproceeds.later.regular hb₁'
  have hpass₂ := hpass.later hreleased hb₁' hsub hy
  obtain ⟨v, w₃, hencode, hcarried, hserves₃, hproceeds₃, hb₃⟩ :=
    Run.encode_of_passable hresult hpass₂ hserves₁ hb₂
  refine ⟨v, w₃, ?_, hpass, hcarried.since hreleased hb₁' hsub hy hpass,
    hreleased.size_le.trans hproceeds₃.size_le, hserves₃,
    (hproceeds.of_append.trans hreleased.of_append).trans hproceeds₃, hb₃⟩
  rw [run_bind_of_ok (Run.releasing_of_ok hrun)]
  exact hencode

/-- A typed function is called with values that carry its arguments. -/
theorem callTyped_of_faithful (name : String) {s : Signature}
    {body : Args s.params → Run κ s.result.Carrier} {xs : Args s.params} {vs : List Value}
    (hbody : Faithful P s.params s.result body) (hresult : s.result.isPassable = true)
    (hparams : ∀ t ∈ s.params, t.isPassable = true) (h : Args.Carried w₀ w s.params xs vs)
    (hxs : Args.Passable w₀ s.params xs) (hserves : w.types.Serves travelClasses)
    (hb : w.Balanced P others) (hvs : ∀ v ∈ vs, Borrowed w others v)
    (hbase : w₀.heap.cells.size ≤ w.heap.cells.size) :
    ∃ ys w₁, Args.Returned w₀ w₁ s.params xs ys ∧ w.Proceeds others w₁ ∧
      (∀ z w₂, body ys w₁ = (.ok z, w₂) → ∃ v w₃, Run.callTyped name s body vs w = (.ok v, w₃) ∧
        Answers P w others s.result w₂ z v w₃) ∧
      ∀ fault w₂, body ys w₁ = (.error fault, w₂) → ∃ w₃,
        Run.callTyped name s body vs w = (.error fault, w₃) := by
  obtain ⟨ys, w₁, hdecode, htypes, hback, hpass, hproceeds, hb₁⟩ :=
    Run.decodeArgs_of_passable name s.text 0 h hparams hxs hserves.regular hb hvs hbase
  have hcall : Run.callTyped name s body vs w = (do
      let y ← Run.releasing (Args.references s.params ys) (body ys)
      Run.encode s.result y) w₁ := by
    unfold Run.callTyped
    rw [if_neg (not_not.mpr h.length_eq), run_bind_of_ok hdecode]
  refine ⟨ys, w₁, hback, hproceeds, fun z w₂ hrun => ?_, fun fault w₂ hrun => ?_⟩
  · obtain ⟨v, w₃, hdone, hanswers⟩ :=
      encode_of_faithful hbody hresult hb₁ (htypes ▸ hserves) hpass hrun
    exact ⟨v, w₃, hcall.trans hdone, hanswers.before hproceeds⟩
  · exact ⟨_, hcall.trans (run_bind_of_error (Run.releasing_of_error hrun))⟩

/-! ## Calls -/

variable {ε : Type} [Callable ε] {P : FunctionCode ε → Prop} {w w' : World (FunctionCode ε)}
  {e : ε} {f : ObjId} {finalizer : Option Hook} {vs : List Value} {name : String} {s : Signature}

/-- The code is that of a typed function, whose body may call others. -/
def IsTyped (e : ε) (name : String) (s : Signature)
    (body : Invoke (FunctionCode ε) → Args s.params → Run (FunctionCode ε) s.result.Carrier) :
    Prop :=
  ∀ invoke vs, Callable.call invoke e vs = Run.callTyped name s (body invoke) vs

/-- A function of a program runs its code one level deeper. -/
theorem invokeWithin_program (depth : Nat)
    (hcontent : w.payload? f = some (.function (.program e) finalizer)) (vs : List Value) :
    invokeWithin (depth + 1) (some f) vs w = Callable.call (invokeWithin depth) e vs w := by
  unfold invokeWithin
  rw [run_get_bind, hcontent]

end Function

namespace CallBuilder

variable {ε : Type} [Callable ε] {w w' : World (FunctionCode ε)} {f : Ref}

theorem foldl_addArg (b : CallBuilder) (vs : List Value) :
    vs.foldl addArg b = { b with args := b.args ++ vs } := by
  induction vs generalizing b with
  | nil => rw [List.foldl_nil, List.append_nil]
  | cons v vs ih =>
      rw [List.foldl_cons, ih]
      simp only [addArg, List.append_assoc, List.singleton_append]

/-- Without a value that stands in for the result, an assembled call is a call. -/
theorem invoke_ofFunction (f : Ref) (vs : List Value) (w : World (FunctionCode ε)) :
    (vs.foldl addArg (ofFunction f)).invoke w = Function.invoke f vs w := by
  rw [foldl_addArg]
  unfold invoke
  simp only [ofFunction, List.nil_append]
  rcases hrun : Function.invoke f vs w with ⟨fault | v, w'⟩
  · exact run_bind_of_error hrun
  · rw [run_bind_of_ok hrun]
    cases v.isNull <;> rfl

end CallBuilder

namespace Function

variable {ε : Type} [Callable ε] {P : FunctionCode ε → Prop} {w w' : World (FunctionCode ε)}
  {others : List ObjId} {e : ε} {f : ObjId} {finalizer : Option Hook} {vs : List Value}
  {name : String} {s : Signature}

/-- A typed function is called through a reference. -/
theorem invoke_of_typed
    {body : Invoke (FunctionCode ε) → Args s.params → Run (FunctionCode ε) s.result.Carrier}
    {w₀ : World (FunctionCode ε)} {xs : Args s.params} (htyped : IsTyped e name s body)
    (hbody : Faithful P s.params s.result (body (invokeWithin (maxDepth - 1))))
    (hresult : s.result.isPassable = true) (hparams : ∀ t ∈ s.params, t.isPassable = true)
    (hcontent : w.payload? f = some (.function (.program e) finalizer))
    (hf : w.heap.Reachable others f) (h : Args.Carried w₀ w s.params xs vs)
    (hxs : Args.Passable w₀ s.params xs) (hserves : w.types.Serves travelClasses)
    (hb : w.Balanced P others) (hvs : ∀ v ∈ vs, Borrowed w others v)
    (hbase : w₀.heap.cells.size ≤ w.heap.cells.size) :
    ∃ ys w₁, Args.Returned w₀ w₁ s.params xs ys ∧ w.Proceeds others w₁ ∧
      (∀ z w₂, body (invokeWithin (maxDepth - 1)) ys w₁ = (.ok z, w₂) → ∃ v w₃,
        invoke (some f) vs w = (.ok v, w₃) ∧ Answers P w others s.result w₂ z v w₃) ∧
      ∀ fault w₂, body (invokeWithin (maxDepth - 1)) ys w₁ = (.error fault, w₂) → ∃ w₃,
        invoke (some f) vs w = (.error fault, w₃) := by
  -- the function is held while it runs
  obtain ⟨wf, hretain⟩ : ∃ wf, Run.retain f w = (.ok (), wf) := ⟨_, rfl⟩
  obtain ⟨hheld, hb'⟩ :=
    (Run.conserves_retain [] [] hb hf).proceeds (Run.advances_modifyHeap (S := ObjectClass.Rightful) _)
      hserves.regular hretain
  have hwhole : ∀ id ∈ others, id ∈ others := fun _ hid => hid
  have hcontent' : wf.payload? f = some (.function (.program e) finalizer) :=
    (hheld.since.payload? hb hf hwhole).trans hcontent
  have hserves' : wf.types.Serves travelClasses := by
    cases hretain
    exact hserves
  obtain ⟨ys, w₁, hback, hproceeds, hok, herror⟩ :=
    callTyped_of_faithful name hbody hresult hparams (h.later hheld hb hwhole hvs) hxs
      hserves' hb' (fun v hv => ((hvs v hv).since hheld.since).append)
      (hbase.trans hheld.size_le)
  have hrun : ∀ answer w₃, Run.callTyped name s (body (invokeWithin (maxDepth - 1))) vs wf =
      (answer, w₃) → invokeWithin maxDepth (some f) vs wf = (answer, w₃) := by
    intro answer w₃ hcall
    rw [show maxDepth = maxDepth - 1 + 1 from rfl, invokeWithin_program _ hcontent', htyped]
    exact hcall
  have hinvoke : invoke (some f) vs w =
      Run.releasing [f] (invokeWithin maxDepth (some f) vs) wf := by
    unfold invoke
    exact run_bind_of_ok hretain
  refine ⟨ys, w₁, hback, hheld.trans hproceeds.of_append, fun z w₂ hz => ?_, fun fault w₂ hz => ?_⟩
  · obtain ⟨v, w₃, hcall, hanswers⟩ := hok z w₂ hz
    exact ⟨v, _, hinvoke.trans (Run.releasing_of_ok (hrun _ _ hcall)),
      hanswers.release.before hheld⟩
  · obtain ⟨w₃, hcall⟩ := herror fault w₂ hz
    exact ⟨_, hinvoke.trans (Run.releasing_of_error (hrun _ _ hcall))⟩

theorem callAs_of_ok {r : Ref} {v : Value} (result : ValueType)
    (hrun : invoke r vs w = (.ok v, w')) :
    callAs r result vs w = Run.releasing v.object?.toList (Run.decode result v) w' := by
  unfold callAs
  exact run_bind_of_ok ((CallBuilder.invoke_ofFunction r vs w).trans hrun)

theorem callAs_of_error {r : Ref} {fault : Fault} (result : ValueType)
    (hrun : invoke r vs w = (.error fault, w')) :
    callAs r result vs w = (.error fault, w') := by
  unfold callAs
  exact run_bind_of_error ((CallBuilder.invoke_ofFunction r vs w).trans hrun)

/-- A closure calls the body of its function with what comes back for its arguments, and returns what
comes back for the result; it fails where the body does. -/
theorem callClosure_of_typed
    {body : Invoke (FunctionCode ε) → Args s.params → Run (FunctionCode ε) s.result.Carrier}
    {xs : Args s.params} (htyped : IsTyped e name s body)
    (hbody : Faithful P s.params s.result (body (invokeWithin (maxDepth - 1))))
    (hresult : s.result.isPassable = true) (hparams : ∀ t ∈ s.params, t.isPassable = true)
    (hcontent : w.payload? f = some (.function (.program e) finalizer))
    (hf : w.heap.Reachable others f) (hxs : Args.Passable w s.params xs)
    (hserves : w.types.Serves travelClasses)
    (hb : w.Balanced P (Args.references s.params xs ++ others)) :
    ∃ ys w₁, Args.Returned w w₁ s.params xs ys ∧ w.Proceeds others w₁ ∧
      (∀ z w₂, body (invokeWithin (maxDepth - 1)) ys w₁ = (.ok z, w₂) → ∃ z' w₃,
        callClosure (some f) s.params s.result xs w = (.ok z', w₃) ∧
          s.result.Returned w₂ w₃ z z') ∧
      ∀ fault w₂, body (invokeWithin (maxDepth - 1)) ys w₁ = (.error fault, w₂) → ∃ w₃,
        callClosure (some f) s.params s.result xs w = (.error fault, w₃) := by
  obtain ⟨vs, wa, hencode, hcarried, hserves', hproceeds, hb'⟩ :=
    Run.encodeArgs_of_passable hparams hxs hserves hb
  have hsub : ∀ id ∈ others, id ∈ Args.references s.params xs ++ others :=
    fun id hid => List.mem_append_right _ hid
  have hcontent' : wa.payload? f = some (.function (.program e) finalizer) :=
    (hproceeds.since.payload? hb hf hsub).trans hcontent
  have hf' : wa.heap.Reachable (vs.filterMap Value.object? ++ others) f :=
    (hproceeds.since.reachable hf).mono fun id hid => List.mem_append_right _ hid
  have hvs : ∀ v ∈ vs, Borrowed wa (vs.filterMap Value.object? ++ others) v := fun v hv id hid =>
    .of_mem (List.mem_append_left _ (List.mem_filterMap.mpr ⟨v, hv, hid⟩))
  obtain ⟨ys, w₁, hback, hproceeds₁, hok, herror⟩ :=
    invoke_of_typed htyped hbody hresult hparams hcontent' hf' hcarried hxs hserves' hb' hvs
      hproceeds.size_le
  have hcall : callClosure (some f) s.params s.result xs w =
      Run.releasing (vs.filterMap Value.object?) (callAs (some f) s.result vs) wa := by
    unfold callClosure
    exact run_bind_of_ok hencode
  refine ⟨ys, w₁, hback, hproceeds.trans hproceeds₁.of_append, fun z w₂ hz => ?_,
    fun fault w₂ hz => ?_⟩
  · obtain ⟨v, wv, hinvoke, hanswers⟩ := hok z w₂ hz
    obtain ⟨z', w₃, hrelease, hback', hproceeds₃, hb₃⟩ :=
      Run.release_of_passable hanswers.carried hresult hanswers.passable
        hanswers.proceeds.later.regular hanswers.balanced hanswers.size
    have hb₃' : w₃.Balanced P
        (vs.filterMap Value.object? ++ (s.result.references z' ++ others)) :=
      hb₃.perm (List.perm_append_comm_assoc _ _ _)
    obtain ⟨hreleased, -⟩ := Run.proceeds_releases hproceeds₃.later.regular hb₃'
    refine ⟨z', _, hcall.trans
      (Run.releasing_of_ok ((callAs_of_ok s.result hinvoke).trans hrelease)), ?_⟩
    exact hback'.later hreleased hb₃' (fun id hid => List.mem_append_right _ hid)
      fun id hid => .of_mem (List.mem_append_left _ hid)
  · obtain ⟨w₃, hinvoke⟩ := herror fault w₂ hz
    exact ⟨_, hcall.trans (Run.releasing_of_error (callAs_of_error s.result hinvoke))⟩

/-- Values survive the calling convention.  A member that goes over to a value comes back, as an
argument and as a result; and a closure of a typed function is the function on what comes back for
its arguments, which fails only where the function does. -/
theorem values_survive_passing (P : FunctionCode ε → Prop) (w : World (FunctionCode ε))
    (others : List ObjId) (hserves : w.types.Serves travelClasses) :
    (∀ (t : ValueType) (x : t.Carrier), t.isPassable = true → t.Passable w x →
      w.Balanced P (t.references x ++ others) →
        ∃ v w₁, Run.encode t x w = (.ok v, w₁) ∧ ∀ u ∈ [v.asArgument, v.asResult], ∃ y w₂,
          Run.releasing u.object?.toList (Run.decode t u) w₁ = (.ok y, w₂) ∧ t.Returned w w₂ x y) ∧
    ∀ (e : ε) (name : String) (s : Signature)
      (body : Invoke (FunctionCode ε) → Args s.params → Run (FunctionCode ε) s.result.Carrier)
      (f : ObjId) (finalizer : Option Hook) (xs : Args s.params), IsTyped e name s body →
      Faithful P s.params s.result (body (invokeWithin (maxDepth - 1))) →
      (∀ t ∈ s.result :: s.params, t.isPassable = true) →
      w.payload? f = some (.function (.program e) finalizer) → w.heap.Reachable others f →
      Args.Passable w s.params xs → w.Balanced P (Args.references s.params xs ++ others) →
        ∃ ys w₁, Args.Returned w w₁ s.params xs ys ∧ w.Proceeds others w₁ ∧
          (∀ z w₂, body (invokeWithin (maxDepth - 1)) ys w₁ = (.ok z, w₂) → ∃ z' w₃,
            callClosure (some f) s.params s.result xs w = (.ok z', w₃) ∧
              s.result.Returned w₂ w₃ z z') ∧
          ∀ fault w₂, body (invokeWithin (maxDepth - 1)) ys w₁ = (.error fault, w₂) → ∃ w₃,
            callClosure (some f) s.params s.result xs w = (.error fault, w₃) := by
  refine ⟨fun t x ht hx hb => ?_, fun e name s body f finalizer xs htyped hbody hts hcontent hf hxs
    hb => ?_⟩
  · obtain ⟨v, w₁, hrun, hcarried, -, hproceeds, hb₁⟩ := Run.encode_of_passable ht hx hserves hb
    refine ⟨v, w₁, hrun, fun u hu => ?_⟩
    obtain ⟨g, hg, rfl⟩ : ∃ g, Value.Retags g ∧ u = g v := by
      rcases List.mem_pair.mp hu with rfl | rfl
      · exact ⟨_, Value.retags_asArgument, rfl⟩
      · exact ⟨_, Value.retags_asResult, rfl⟩
    rw [← hg.object?_eq] at hb₁
    obtain ⟨y, w₂, hrelease, hback, -⟩ :=
      Run.release_of_passable (hcarried.retag hg ht) ht hx hproceeds.later.regular hb₁
        hproceeds.size_le
    exact ⟨y, w₂, hrelease, hback⟩
  · obtain ⟨hresult, hparams⟩ := List.forall_mem_cons.mp hts
    exact callClosure_of_typed htyped hbody hresult hparams hcontent hf hxs hserves hb

end Function

/-! ## A function that returns its argument -/

/-- A function that returns its argument. -/
def relay : World (FunctionCode SampleCode) :=
  (Function.make (.program (.function .object "obj")) none World.initial).2

/-- Beside it a box. -/
def relayAndSeven : World (FunctionCode SampleCode) := (Box.make (.int 7) relay).2

namespace Function

theorem isTyped_object (name : String) :
    IsTyped (SampleCode.function .object name) name ⟨[.ref .object], .ref .object, false⟩
      fun _ xs => do Run.retainRef xs.1; return xs.1 :=
  fun _ _ => rfl

theorem serves_relayAndSeven : relayAndSeven.types.Serves travelClasses := by
  have hfunction : TypeTable.Roomy (TypeTable.initial.touch .function).2 :=
    (TypeTable.Roomy.initial.touch (by decide)).2
  have hbox : TypeTable.Roomy ((TypeTable.initial.touch .function).2.touch .boxInt).2 :=
    (hfunction.touch (by decide)).2
  exact hbox.serves.mono (by decide)

theorem balanced_relayAndSeven : relayAndSeven.Balanced (fun _ => True) [⟨1⟩, ⟨0⟩] := by
  have hempty : (World.initial : World (FunctionCode SampleCode)).Balanced (fun _ => True) [] :=
    .of_empty rfl
  have hmake : Run.Conserves (fun _ => True) World.initial [] (fun id => [id]) []
      (make (.program (.function .object "obj")) none : Run (FunctionCode SampleCode) ObjId) :=
    conserves_make hempty trivial
  obtain ⟨-, hb⟩ := hmake.ok ⟨0⟩ relay rfl
  have hbox : Run.Conserves (fun _ => True) relay [⟨0⟩] (fun id => [id]) []
      (Box.make (.int 7) : Run (FunctionCode SampleCode) ObjId) := Box.conserves_make hb
  exact (hbox.ok ⟨1⟩ relayAndSeven rfl).2

theorem objectAt_relayAndSeven : relayAndSeven.ObjectAt ⟨1⟩ .boxInt (.boxInt 7) :=
  ⟨by rfl, by rfl⟩

theorem referable_relayAndSeven : relayAndSeven.Referable .object ⟨1⟩ := by
  have hat : relayAndSeven.ObjectAt ⟨1⟩ (BoxContent.int 7).cls (BoxContent.int 7).payload :=
    objectAt_relayAndSeven
  exact World.referable_of_box serves_relayAndSeven.regular hat (show _ = some 0 from rfl)
    (by decide +kernel) (by decide +kernel)

/-- The box goes over to a value and comes back, and so it does through a closure of the function. -/
theorem values_survive_passing_relayAndSeven :
    relayAndSeven.types.Serves travelClasses ∧
    relayAndSeven.ObjectAt ⟨1⟩ .boxInt (.boxInt 7) ∧
    (∃ v w₁, Run.encode (.ref .object) (some ⟨1⟩) relayAndSeven = (.ok v, w₁) ∧
      ∀ u ∈ [v.asArgument, v.asResult], ∃ y w₂,
        Run.releasing u.object?.toList (Run.decode (.ref .object) u) w₁ = (.ok y, w₂) ∧
          (ValueType.ref .object).Returned relayAndSeven w₂ (some ⟨1⟩) y) ∧
    ∃ (ys : Args [.ref .object]) (w₁ w₂ w₃ : World (FunctionCode SampleCode)) (r : Ref),
      Args.Returned relayAndSeven w₁ [.ref .object] (some ⟨1⟩, ()) ys ∧
      callClosure (some ⟨0⟩) [.ref .object] (.ref .object) (some ⟨1⟩, ()) relayAndSeven =
        (.ok r, w₃) ∧ (ValueType.ref .object).Returned w₂ w₃ ys.1 r := by
  obtain ⟨hvalue, hclosure⟩ :=
    values_survive_passing (fun _ => True) relayAndSeven [⟨0⟩] serves_relayAndSeven
  have hpassable : (ValueType.ref .object).Passable relayAndSeven (some ⟨1⟩) := by
    rintro a ha
    cases ha
    exact referable_relayAndSeven
  obtain ⟨ys, w₁, hback, -, hok, -⟩ :=
    hclosure _ "obj" ⟨[.ref .object], .ref .object, false⟩ _ ⟨0⟩ none (some ⟨1⟩, ())
      (isTyped_object "obj") (faithful_retaining _ .object) (by decide) rfl
      (.of_mem List.mem_cons_self) ⟨hpassable, trivial⟩ balanced_relayAndSeven
  have hbody : ∃ w₂, (do Run.retainRef ys.1; return ys.1 : Run (FunctionCode SampleCode) Ref) w₁ =
      (.ok ys.1, w₂) := by
    obtain ⟨_ | id, u⟩ := ys <;> exact ⟨_, rfl⟩
  obtain ⟨w₂, hrun⟩ := hbody
  obtain ⟨r, w₃, hcall, hresult⟩ := hok _ w₂ hrun
  exact ⟨serves_relayAndSeven, objectAt_relayAndSeven,
    hvalue _ _ rfl hpassable balanced_relayAndSeven, ys, w₁, w₂, w₃, r, hback, hcall, hresult⟩

end Function

end ObjectRuntime
