import ObjectRuntime.Proofs.Reflection.Building
import ObjectRuntime.Proofs.Tensor.Blob
set_option autoImplicit false

/-!
# Tensors restored from blobs

A tensor that is read from a blob is made of zeros and then filled, so in the end it owns the bytes
that the blob holds.
-/

namespace ObjectRuntime

variable {κ : Type} {w : World κ} {h : Heap κ} {index : Nat}

/-- A content that replaces that of the newest object might have been its content from the start. -/
theorem Heap.setPayload_alloc (h : Heap κ) (typeIndex : Nat) (payload payload' : Payload κ) :
    (h.alloc typeIndex payload).1.setPayload ⟨h.cells.size⟩ payload' =
      (h.alloc typeIndex payload').1 := by
  have hnew : (h.alloc typeIndex payload).1.get? ⟨h.cells.size⟩ = some ⟨typeIndex, 1, payload⟩ := by
    rw [Heap.get?_alloc, if_pos rfl]
  simp only [Heap.setPayload, hnew]
  simp [Heap.alloc, Heap.set, Array.setIfInBounds, Array.set_push]

/-- Bytes that are written over as many others replace them. -/
theorem Bytes.overwrite_all (memory data : Bytes) (hlength : memory.length = data.length) :
    Bytes.overwrite memory 0 data = data := by
  simp [Bytes.overwrite, ← hlength]

namespace Blob

/-- A tensor as it is written, from host memory. -/
def hostRecord (dtype : DataType) (shape : List Int) (data : Bytes) : TensorRecord :=
  ⟨Device.host.toRaw, dtype, shape, data⟩

/-- A tensor that owns its bytes. -/
def ownTensor (dtype : DataType) (shape : List Int) (data : Bytes) : Tensor :=
  ⟨shape, dtype, Device.host.toRaw.unit, 0, .owned data⟩

variable {dtype : DataType} {shape : List Int} {data : Bytes}

theorem checkShape_of_nonneg (hshape : ∀ n ∈ shape, 0 ≤ n) :
    Tensor.checkShape shape = .ok () := by
  have hnone : shape.find? (· < 0) = none :=
    List.find?_eq_none.mpr fun n hn => by simpa using hshape n hn
  rw [Tensor.checkShape, hnone]

theorem nonneg_of_checkShape (hcheck : Tensor.checkShape shape = .ok ()) : ∀ n ∈ shape, 0 ≤ n := by
  intro n hn
  cases hfind : shape.find? (· < 0) with
  | none => simpa using List.find?_eq_none.mp hfind n hn
  | some dim =>
      rw [Tensor.checkShape, hfind] at hcheck
      cases hcheck

theorem ofFallible_of_ok {α : Type} {answer : Except Fault α} {a : α} {v : World κ}
    (h : answer = .ok a) : Run.ofFallible answer v = (.ok a, v) := by
  rw [h]
  rfl

theorem ofExcept_of_ok {answer : Except Error Unit} {v : World κ} (h : answer = .ok ()) :
    Run.ofExcept answer v = (.ok (), v) := by
  rw [h]
  rfl

/-- Zeros that fit into memory go into a new object. -/
theorem zeros_eq_create (hshape : ∀ n ∈ shape, 0 ≤ n)
    (hsize : (ownTensor dtype shape data).size = .ok data.length)
    (hroom : max data.length 1 ≤ IntKind.isize.max.toNat - (Tensor.alignment - 1)) (v : World κ) :
    Tensor.zeros shape dtype .host v =
      Run.create .tensor (.tensor (ownTensor dtype shape (List.replicate data.length 0))) v := by
  have hhost : Tensor.checkHost Device.host.toRaw = .ok () := rfl
  have hheader : (ownTensor dtype shape []).size = .ok data.length := hsize
  rw [Tensor.zeros, run_bind_of_ok (ofExcept_of_ok (checkShape_of_nonneg hshape))]
  refine (run_bind_of_ok (ofExcept_of_ok hhost)).trans ?_
  refine (run_bind_of_ok (ofFallible_of_ok hheader)).trans ?_
  rw [if_neg (Nat.not_lt.mpr hroom)]
  rfl

theorem zeros_of_size (hclass : w.types.classIndex? .tensor = some index)
    (hshape : ∀ n ∈ shape, 0 ≤ n)
    (hsize : (ownTensor dtype shape data).size = .ok data.length)
    (hroom : max data.length 1 ≤ IntKind.isize.max.toNat - (Tensor.alignment - 1)) :
    Tensor.zeros shape dtype .host (w.withHeap h) = (.ok ⟨h.cells.size⟩, w.withHeap
      (h.alloc index (.tensor (ownTensor dtype shape (List.replicate data.length 0)))).1) :=
  (zeros_eq_create hshape hsize hroom _).trans (Run.create_of_classIndex? hclass _)

/-- The newest object is the tensor that it holds. -/
theorem tensor?_alloc (t : Tensor) :
    (w.withHeap (h.alloc index (.tensor t)).1).tensor? ⟨h.cells.size⟩ = some t := by
  have hnew : (h.alloc index (.tensor t)).1.get? ⟨h.cells.size⟩ = some ⟨index, 1, .tensor t⟩ := by
    rw [Heap.get?_alloc, if_pos rfl]
  simp [World.tensor?, World.payload?, hnew]

/-- Filling a new tensor gives it the bytes. -/
theorem fill_ownTensor {old : Bytes} (hsize : (ownTensor dtype shape data).size = .ok data.length)
    (hlength : old.length = data.length) :
    Tensor.fill ⟨h.cells.size⟩ (ownTensor dtype shape old) data
        (w.withHeap (h.alloc index (.tensor (ownTensor dtype shape old))).1) =
      (.ok (), w.withHeap (h.alloc index (.tensor (ownTensor dtype shape data))).1) := by
  have htensor : (w.withHeap (h.alloc index (.tensor (ownTensor dtype shape old))).1).tensor?
      ⟨h.cells.size⟩ = some (ownTensor dtype shape old) := tensor?_alloc _
  have hhome : ∀ fuel, (w.withHeap (h.alloc index (.tensor (ownTensor dtype shape old))).1).memoryHome
      fuel ⟨h.cells.size⟩ = ⟨h.cells.size⟩ := by
    intro fuel
    cases fuel with
    | zero => rfl
    | succ fuel =>
        rw [World.memoryHome, htensor]
        rfl
  have hwrite : Tensor.writeMemory ⟨h.cells.size⟩ 0 data
      (w.withHeap (h.alloc index (.tensor (ownTensor dtype shape old))).1) =
        (.ok (), w.withHeap (h.alloc index (.tensor (ownTensor dtype shape data))).1) := by
    have hset : (h.alloc index (.tensor (ownTensor dtype shape old))).1.setPayload ⟨h.cells.size⟩
        (.tensor (ownTensor dtype shape (Bytes.overwrite old 0 data))) =
        (h.alloc index (.tensor (ownTensor dtype shape data))).1 := by
      rw [Heap.setPayload_alloc, Bytes.overwrite_all old data hlength]
    rw [Tensor.writeMemory, run_get_bind]
    simp only [hhome, htensor]
    exact congrArg (fun h' => ((.ok () : Except Fault Unit), w.withHeap h')) hset
  have hsize' : (ownTensor dtype shape old).size = .ok data.length := hsize
  rw [Tensor.fill, run_bind_of_ok (ofFallible_of_ok hsize')]
  simp only
  rw [if_neg (not_not_intro rfl)]
  exact hwrite

theorem deref_of_tensor? {v : World κ} {id : ObjId} {t : Tensor} (ht : v.tensor? id = some t) :
    Tensor.deref (some id) v = (.ok (id, t), v) := by
  rw [Tensor.deref, run_get_bind, ht]
  rfl

/-- Zeros at the end of the heap become the tensor of a record. -/
theorem restore_of_zeros {v : World κ} (hsize : (ownTensor dtype shape data).size = .ok data.length)
    (hzeros : Tensor.zeros shape dtype .host v = (.ok ⟨h.cells.size⟩, w.withHeap
      (h.alloc index (.tensor (ownTensor dtype shape (List.replicate data.length 0)))).1)) :
    restore (hostRecord dtype shape data) v = (.ok ⟨h.cells.size⟩,
      w.withHeap (h.alloc index (.tensor (ownTensor dtype shape data))).1) := by
  have hkind : (hostRecord dtype shape data).device.kind = DeviceKind.cpu.code := rfl
  have hdata : (hostRecord dtype shape data).data = data := rfl
  have hsize' : (ownTensor dtype shape (List.replicate data.length 0)).size = .ok data.length := hsize
  rw [restore, if_neg (not_not_intro hkind)]
  refine (run_bind_of_ok hzeros).trans ?_
  refine (run_bind_of_ok (Run.releasingOnFault_of_ok (a := ()) ?_)).trans rfl
  rw [run_bind_of_ok (deref_of_tensor? (tensor?_alloc _))]
  simp only
  rw [run_bind_of_ok (ofFallible_of_ok hsize'), hdata, if_neg (not_not_intro rfl)]
  exact fill_ownTensor hsize List.length_replicate

/-- A tensor is made of its record, if it has a size that a tensor may have. -/
theorem restore_hostRecord (hclass : w.types.classIndex? .tensor = some index)
    (hshape : ∀ n ∈ shape, 0 ≤ n)
    (hsize : (ownTensor dtype shape data).size = .ok data.length)
    (hroom : max data.length 1 ≤ IntKind.isize.max.toNat - (Tensor.alignment - 1)) :
    restore (hostRecord dtype shape data) (w.withHeap h) = (.ok ⟨h.cells.size⟩,
      w.withHeap (h.alloc index (.tensor (ownTensor dtype shape data))).1) :=
  restore_of_zeros hsize (zeros_of_size hclass hshape hsize hroom)

/-- A tensor that has been written is read back. -/
theorem loadTensor_encode (hclass : w.types.classIndex? .tensor = some index)
    (hrank : IntKind.i32.Fits shape.length) (hshape : ∀ n ∈ shape, 0 ≤ n ∧ IntKind.i64.Fits n)
    (hsize : (ownTensor dtype shape data).size = .ok data.length)
    (hroom : max data.length 1 ≤ IntKind.isize.max.toNat - (Tensor.alignment - 1)) :
    loadTensor (hostRecord dtype shape data).encode (w.withHeap h) = (.ok ⟨h.cells.size⟩,
      w.withHeap (h.alloc index (.tensor (ownTensor dtype shape data))).1) := by
  have hwritable : (hostRecord dtype shape data).Writable := by
    refine ⟨hrank, fun n hn => (hshape n hn).2, ?_⟩
    have hlt : IntKind.isize.max.toNat < 256 ^ 8 := by decide
    simp only [hostRecord]
    omega
  rw [loadTensor, Step.readAll_encode hwritable]
  exact restore_hostRecord hclass (fun n hn => (hshape n hn).1) hsize hroom

/-! ## Several tensors -/

/-- Bytes that are not read are reported. -/
theorem loadParams_of_defect {blob : Bytes} {defect : BlobDefect}
    (hread : Step.readAll Step.params blob = .error defect) :
    loadParams blob w = (.error (.error (.blobFormat defect)), w) := by
  rw [loadParams, hread]
  rfl

theorem loadParams_of_counts {blob : Bytes} {p : ParamRecord}
    (hread : Step.readAll Step.params blob = .ok p) (hcount : p.names.length ≠ p.tensors.length) :
    loadParams blob w =
      (.error (.error (.blobFormat (.countMismatch p.names.length p.tensors.length))), w) := by
  rw [loadParams, hread]
  exact (congrFun (if_pos hcount) w).trans rfl

/-- What is read goes into a new map. -/
theorem loadParams_of_read {blob : Bytes} {p : ParamRecord}
    (hread : Step.readAll Step.params blob = .ok p) (hcount : p.names.length = p.tensors.length) :
    loadParams blob w =
      (Dict.ofList [] >>= fun r => insertAll r (p.names.zip p.tensors)) w := by
  rw [loadParams, hread]
  exact congrFun (if_neg (not_not_intro hcount)) w

end Blob

end ObjectRuntime
