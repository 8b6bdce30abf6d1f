import ObjectRuntime.Proofs.Tensor.Restoring
set_option autoImplicit false

/-!
# Memory and who shows it

The bytes of a tensor lie in the memory of its home, the tensor at the end of the chain of those that
share memory.  Writing replaces the bytes at the home and nothing else, so every tensor with the same
home shows what was written, and all others show what they showed.
-/

namespace ObjectRuntime

variable {κ : Type} {w w' : World κ} {id x y : ObjId} {data : Bytes} {t s : Tensor}

namespace Tensor

/-- The tensor in whose memory the elements are, if it is another one. -/
def source? (t : Tensor) : Option ObjId :=
  match t.memory with
  | .sharedWith source => some source
  | .owned _ | .foreign .. => none

/-- The bytes that the tensor keeps itself. -/
def ownBytes (t : Tensor) : Bytes :=
  match t.memory with
  | .owned data | .foreign data _ => data
  | .sharedWith _ => []

/-- The tensor with other bytes, if they are its own. -/
def withBytes (t : Tensor) (data : Bytes) : Tensor :=
  { t with
    memory :=
      match t.memory with
      | .owned _ => .owned data
      | .foreign _ deleter => .foreign data deleter
      | .sharedWith source => .sharedWith source }

@[simp] theorem withBytes_shape (t : Tensor) (data : Bytes) : (t.withBytes data).shape = t.shape := rfl

@[simp] theorem withBytes_dtype (t : Tensor) (data : Bytes) : (t.withBytes data).dtype = t.dtype := rfl

@[simp] theorem withBytes_unit (t : Tensor) (data : Bytes) : (t.withBytes data).unit = t.unit := rfl

@[simp] theorem withBytes_byteOffset (t : Tensor) (data : Bytes) :
    (t.withBytes data).byteOffset = t.byteOffset := rfl

@[simp] theorem withBytes_size (t : Tensor) (data : Bytes) : (t.withBytes data).size = t.size := rfl

@[simp] theorem withBytes_source? (t : Tensor) (data : Bytes) :
    (t.withBytes data).source? = t.source? := by
  obtain ⟨shape, dtype, unit, offset, memory⟩ := t
  cases memory <;> rfl

theorem ownBytes_withBytes (hown : t.source? = none) (data : Bytes) : (t.withBytes data).ownBytes = data := by
  obtain ⟨shape, dtype, unit, offset, memory⟩ := t
  cases memory with
  | sharedWith => cases hown
  | owned | foreign => rfl

@[simp] theorem withBytes_ownBytes (t : Tensor) : t.withBytes t.ownBytes = t := by
  obtain ⟨shape, dtype, unit, offset, memory⟩ := t
  cases memory <;> rfl

@[simp] theorem hooks_withBytes (t : Tensor) (data : Bytes) :
    (Payload.tensor (t.withBytes data) : Payload κ).hooks = (Payload.tensor t : Payload κ).hooks := by
  obtain ⟨shape, dtype, unit, offset, memory⟩ := t
  cases memory <;> rfl

@[simp] theorem references_tensor (t : Tensor) :
    (Payload.tensor t : Payload κ).references = t.source?.toList := by
  obtain ⟨shape, dtype, unit, offset, memory⟩ := t
  cases memory <;> rfl

end Tensor

namespace World

/-- The tensor that keeps the memory of a tensor. -/
def home (w : World κ) (id : ObjId) : ObjId := w.memoryHome w.heap.cells.size id

/-- The memory of the tensor is kept by its home. -/
def KeepsMemory (w : World κ) (id : ObjId) : Prop :=
  ∃ t, w.tensor? (w.home id) = some t ∧ t.source? = none

/-- The world with other bytes in the memory of a tensor. -/
def withMemory (w : World κ) (id : ObjId) (data : Bytes) : World κ :=
  match w.tensor? (w.home id) with
  | some t => w.withHeap (w.heap.setPayload (w.home id) (.tensor (t.withBytes data)))
  | none => w

theorem tensor?_eq_some :
    w.tensor? id = some t ↔ ∃ o, w.heap.get? id = some o ∧ o.payload = .tensor t := by
  simp only [tensor?, World.payload?]
  rcases w.heap.get? id with _ | ⟨typeIndex, count, payload⟩
  · simp
  · cases payload <;> simp

/-! ## Homes -/

/-- The tensor with which a tensor shares its memory. -/
def source? (w : World κ) (id : ObjId) : Option ObjId := (w.tensor? id).bind Tensor.source?

theorem memoryHome_succ (w : World κ) (fuel : Nat) (id : ObjId) :
    w.memoryHome (fuel + 1) id = (w.source? id).elim id (w.memoryHome fuel) := by
  rw [memoryHome, source?]
  rcases w.tensor? id with _ | ⟨shape, dtype, unit, offset, memory⟩
  · rfl
  · cases memory <;> rfl

theorem memoryHome_of_source (hsource : w.source? x = some y) (fuel : Nat) :
    w.memoryHome (fuel + 1) x = w.memoryHome fuel y := by
  rw [memoryHome_succ, hsource, Option.elim_some]

theorem memoryHome_of_no_source (hsource : w.source? id = none) (fuel : Nat) :
    w.memoryHome fuel id = id := by
  cases fuel with
  | zero => rfl
  | succ fuel => rw [memoryHome_succ, hsource, Option.elim_none]

/-- Tensors that share memory with the same ones have the same homes. -/
theorem memoryHome_congr (h : ∀ x, w'.source? x = w.source? x) (fuel : Nat) (id : ObjId) :
    w'.memoryHome fuel id = w.memoryHome fuel id := by
  induction fuel generalizing id with
  | zero => rfl
  | succ fuel ih =>
      rw [memoryHome_succ, memoryHome_succ, h]
      cases w.source? id with
      | none => rfl
      | some source => exact ih source

/-- A chain ends if it gets shorter with each step, and following it further leads nowhere else. -/
theorem memoryHome_of_shorter {P : Nat → ObjId → Prop} (hend : ∀ {id}, P 0 id → w.source? id = none)
    (hshorter : ∀ {n x y}, P (n + 1) x → w.source? x = some y → P n y) {n m : Nat} (hP : P n id)
    (hle : n ≤ m) :
    w.memoryHome m id = w.memoryHome n id ∧ w.source? (w.memoryHome n id) = none := by
  induction n generalizing id m with
  | zero =>
      rw [memoryHome_of_no_source (hend hP)]
      exact ⟨rfl, hend hP⟩
  | succ n ih =>
      obtain ⟨m, rfl⟩ := Nat.exists_eq_add_of_le' (Nat.le_trans (Nat.le_add_left 1 n) hle)
      cases hsource : w.source? id with
      | none =>
          rw [memoryHome_of_no_source hsource, memoryHome_of_no_source hsource]
          exact ⟨rfl, hsource⟩
      | some y =>
          rw [memoryHome_of_source hsource, memoryHome_of_source hsource]
          exact ih (hshorter hP hsource) (Nat.le_of_succ_le_succ hle)

/-- A tensor that does not share memory is at home. -/
theorem home_of_source? (ht : w.tensor? id = some t) (hown : t.source? = none) : w.home id = id :=
  memoryHome_of_no_source (by rw [source?, ht, Option.bind_some, hown]) _

/-! ## Other bytes -/

theorem withMemory_of_home (ht : w.tensor? (w.home id) = some t) (data : Bytes) :
    w.withMemory id data =
      w.withHeap (w.heap.setPayload (w.home id) (.tensor (t.withBytes data))) := by
  rw [withMemory, ht]

/-- The home is the object that it was, over other bytes. -/
theorem get?_withMemory_home {o : Object κ} (ho : w.heap.get? (w.home id) = some o)
    (ht : o.payload = .tensor t) (data : Bytes) :
    (w.withMemory id data).heap.get? (w.home id) =
      some { o with payload := .tensor (t.withBytes data) } := by
  rw [withMemory_of_home (tensor?_eq_some.mpr ⟨o, ho, ht⟩), withHeap_heap, Heap.setPayload, ho]
  exact Heap.get?_set_self ho _

/-- All other objects are as they were. -/
theorem get?_withMemory_of_ne (hx : x ≠ w.home id) (data : Bytes) :
    (w.withMemory id data).heap.get? x = w.heap.get? x := by
  unfold withMemory
  split
  · rename_i t ht
    obtain ⟨o, ho, -⟩ := tensor?_eq_some.mp ht
    rw [withHeap_heap, Heap.setPayload, ho]
    exact Heap.get?_set_of_ne hx _
  · rfl

/-- Tensors are what they were, except that the home has other bytes. -/
theorem tensor?_withMemory (w : World κ) (id : ObjId) (data : Bytes) (x : ObjId) :
    (w.withMemory id data).tensor? x =
      if x = w.home id then (w.tensor? x).map (·.withBytes data) else w.tensor? x := by
  split
  · rename_i hx
    subst hx
    cases ht : w.tensor? (w.home id) with
    | none => rw [withMemory, ht]; exact ht
    | some t =>
        obtain ⟨o, ho, hpayload⟩ := tensor?_eq_some.mp ht
        exact tensor?_eq_some.mpr ⟨_, get?_withMemory_home ho hpayload data, rfl⟩
  · rename_i hx
    simp only [tensor?, World.payload?, get?_withMemory_of_ne hx]

theorem size_withMemory (w : World κ) (id : ObjId) (data : Bytes) :
    (w.withMemory id data).heap.cells.size = w.heap.cells.size := by
  unfold withMemory
  split
  · rw [withHeap_heap, Heap.setPayload]
    split
    · exact Heap.size_set _ _ _
    · rfl
  · rfl

/-- Homes do not change. -/
theorem memoryHome_withMemory (w : World κ) (id : ObjId) (data : Bytes) (fuel : Nat) (x : ObjId) :
    (w.withMemory id data).memoryHome fuel x = w.memoryHome fuel x := by
  refine memoryHome_congr (fun x => ?_) fuel x
  rw [source?, source?, tensor?_withMemory]
  split
  · cases w.tensor? x with
    | none => rfl
    | some t => exact Tensor.withBytes_source? t data
  · rfl

theorem home_withMemory (w : World κ) (id : ObjId) (data : Bytes) (x : ObjId) :
    (w.withMemory id data).home x = w.home x := by
  rw [home, home, size_withMemory, memoryHome_withMemory]

/-- The bytes of a tensor are those of its home. -/
theorem memoryBytes_of_home (ht : w.tensor? (w.home id) = some t) : w.memoryBytes id = t.ownBytes := by
  rw [home] at ht
  rw [memoryBytes, ht]
  obtain ⟨shape, dtype, unit, offset, memory⟩ := t
  cases memory <;> rfl

/-- The elements are a part of the memory. -/
theorem tensorBytes_of_size {size : Nat} (hsize : t.size = .ok size) :
    w.tensorBytes id t = .ok (((w.memoryBytes id).drop t.byteOffset).take size) := by
  rw [tensorBytes, hsize]
  rfl

theorem memoryBytes_congr (h : w.home y = w.home x) : w.memoryBytes y = w.memoryBytes x := by
  rw [home, home] at h
  rw [memoryBytes, memoryBytes, h]

/-- All tensors with the same home show the new bytes. -/
theorem memoryBytes_withMemory (hkeeps : w.KeepsMemory id) (hx : w.home x = w.home id)
    (data : Bytes) : (w.withMemory id data).memoryBytes x = data := by
  obtain ⟨t, ht, hown⟩ := hkeeps
  have hhome : (w.withMemory id data).tensor? ((w.withMemory id data).home x) =
      some (t.withBytes data) := by
    rw [home_withMemory, hx, tensor?_withMemory, if_pos rfl, ht, Option.map_some]
  rw [memoryBytes_of_home hhome, Tensor.ownBytes_withBytes hown]

/-- The bytes that are there already change nothing. -/
theorem withMemory_memoryBytes (hkeeps : w.KeepsMemory id) : w.withMemory id (w.memoryBytes id) = w := by
  obtain ⟨t, ht, -⟩ := hkeeps
  obtain ⟨o, ho, hpayload⟩ := tensor?_eq_some.mp ht
  have hsame : t.withBytes (w.memoryBytes id) = t := by
    rw [memoryBytes_of_home ht, Tensor.withBytes_ownBytes]
  rw [withMemory_of_home ht, hsame, Heap.setPayload, ho, ← hpayload]
  exact congrArg w.withHeap (Heap.set_of_get? ho)

end World

namespace Tensor

/-- Writing replaces some of the bytes of the memory and does nothing else. -/
theorem writeMemory_eq (hkeeps : w.KeepsMemory id) (start : Nat) (data : Bytes) :
    writeMemory id start data w =
      (.ok (), w.withMemory id (Bytes.overwrite (w.memoryBytes id) start data)) := by
  obtain ⟨t, ht, hown⟩ := hkeeps
  rw [World.withMemory_of_home ht, World.memoryBytes_of_home ht]
  have hhome : w.tensor? (w.memoryHome w.heap.cells.size id) = some t := ht
  rw [writeMemory, run_get_bind]
  simp only [hhome]
  obtain ⟨shape, dtype, unit, offset, memory⟩ := t
  cases memory with
  | sharedWith => cases hown
  | owned | foreign => rfl

end Tensor

end ObjectRuntime
