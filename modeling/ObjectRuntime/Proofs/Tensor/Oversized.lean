import ObjectRuntime.Proofs.Container.Known
import ObjectRuntime.Proofs.Tensor.Restoring
set_option autoImplicit false

/-!
# Tensors that are too large to be read

The extents in a blob are multiplied before the number of bytes that they ask for is compared with
that of the data.  The product is computed in machine words, so a few bytes can hold extents of
which it cannot be computed, and the reader gives up instead of reporting a bad blob.  This is the
only way in which reading gives up (`loading_panics_iff`): every other blob is restored or reported.
-/

namespace ObjectRuntime

namespace Layout

variable {shape : List Int} {itemSize : Nat}

/-- The number of elements, multiplied up from the first axis, or then the number of bytes leaves
the range of its machine type. -/
def Overflows (shape : List Int) (itemSize : Nat) : Prop :=
  (∃ axes, ¬ IntKind.i64.Fits (shape.take axes).prod) ∨
    ¬ IntKind.usize.Fits (shape.prod * itemSize)

/-- Multiplication goes through if every product on the way is in range. -/
theorem foldlM_mul_of_fits {start : Int}
    (h : ∀ axes, IntKind.i64.Fits (start * (shape.take axes).prod)) :
    shape.foldlM (checkedOp .i64 .mul) start = .ok (start * shape.prod) := by
  induction shape generalizing start with
  | nil => simp [pure, Except.pure]
  | cons n shape ih =>
      have hfirst : IntKind.i64.Fits (start * n) := by simpa using h 1
      have hstep : checkedOp .i64 .mul start n = .ok (start * n) := if_pos hfirst
      rw [List.foldlM_cons, hstep]
      refine (ih fun axes => ?_).trans (by rw [List.prod_cons, Int.mul_assoc])
      simpa [Int.mul_assoc] using h (axes + 1)

/-- It is given up at the first product that is not. -/
theorem foldlM_mul_of_not_fits {start : Int} (hstart : IntKind.i64.Fits start)
    (h : ∃ axes, ¬ IntKind.i64.Fits (start * (shape.take axes).prod)) :
    shape.foldlM (checkedOp .i64 .mul) start = .error (.panic (.overflow .mul)) := by
  induction shape generalizing start with
  | nil =>
      obtain ⟨axes, hout⟩ := h
      simp [hstart] at hout
  | cons n shape ih =>
      rw [List.foldlM_cons]
      by_cases hfirst : IntKind.i64.Fits (start * n)
      · have hstep : checkedOp .i64 .mul start n = .ok (start * n) := if_pos hfirst
        rw [hstep]
        obtain ⟨axes, hout⟩ := h
        cases axes with
        | zero => simp [hstart] at hout
        | succ axes => exact ih hfirst ⟨axes, by simpa [Int.mul_assoc] using hout⟩
      · have hstep : checkedOp .i64 .mul start n = .error (.panic (.overflow .mul)) := if_neg hfirst
        rw [hstep]
        rfl

theorem elementCount_of_fits (h : ∀ axes, IntKind.i64.Fits (shape.take axes).prod) :
    elementCount shape = .ok shape.prod := by
  rw [elementCount, foldlM_mul_of_fits (by simpa using h), Int.one_mul]

theorem elementCount_of_not_fits (h : ∃ axes, ¬ IntKind.i64.Fits (shape.take axes).prod) :
    elementCount shape = .error (.panic (.overflow .mul)) :=
  foldlM_mul_of_not_fits (by decide) (by simpa using h)

end Layout

namespace Tensor

variable {t : Tensor}

theorem toNat_wrap_of_fits {count : Int} (hcount : 0 ≤ count) (hfits : IntKind.i64.Fits count) :
    ((IntKind.usize.wrap count).toNat : Int) = count := by
  have hmax : count ≤ 9223372036854775807 := hfits.2
  simp only [IntKind.wrap, IntKind.isSigned, IntKind.size, IntKind.width, Bool.false_eq_true,
    if_false, Nat.pow_eq]
  omega

/-- The number of elements is taken as a word, which changes none that is in range. -/
theorem size_of_count (hshape : ∀ n ∈ t.shape, 0 ≤ n)
    (hcount : ∀ axes, IntKind.i64.Fits (t.shape.take axes).prod) :
    t.size = checkedOp .usize .mul t.shape.prod t.dtype.itemSize >>= fun n => .ok n.toNat := by
  have hall : IntKind.i64.Fits t.shape.prod := by simpa using hcount t.shape.length
  have hword := toNat_wrap_of_fits (List.prod_nonneg hshape) hall
  rw [size, length, Layout.elementCount_of_fits hcount]
  exact congrArg (fun n => checkedOp .usize .mul n t.dtype.itemSize >>= fun n => .ok n.toNat) hword

theorem size_of_fits (hshape : ∀ n ∈ t.shape, 0 ≤ n)
    (h : ¬ Layout.Overflows t.shape t.dtype.itemSize) :
    t.size = .ok (t.shape.prod * t.dtype.itemSize).toNat := by
  simp only [Layout.Overflows, not_or, not_exists, not_not] at h
  rw [size_of_count hshape h.1, checkedOp, if_pos h.2]
  rfl

theorem size_of_overflows (hshape : ∀ n ∈ t.shape, 0 ≤ n)
    (h : Layout.Overflows t.shape t.dtype.itemSize) :
    t.size = .error (.panic (.overflow .mul)) := by
  by_cases hcount : ∃ axes, ¬ IntKind.i64.Fits (t.shape.take axes).prod
  · rw [size, length, Layout.elementCount_of_not_fits hcount]
    rfl
  · have hsize := h.resolve_left hcount
    simp only [not_exists, not_not] at hcount
    rw [size_of_count hshape hcount, checkedOp, if_neg hsize]
    rfl

end Tensor

variable {κ : Type} {w : World κ} {r : Ref} {saved : Blob.TensorRecord}

namespace Blob

namespace TensorRecord

/-- The record is of host memory and has no negative extent, but its size cannot be computed. -/
structure Oversized (t : TensorRecord) : Prop where
  host : t.device.kind = DeviceKind.cpu.code
  dims : ∀ n ∈ t.shape, 0 ≤ n
  overflows : Layout.Overflows t.shape t.dtype.itemSize

/-- The record is of host memory and its data are those of its extents. -/
structure Restorable (t : TensorRecord) : Prop where
  host : t.device.kind = DeviceKind.cpu.code
  dims : ∀ n ∈ t.shape, 0 ≤ n
  fits : ¬ Layout.Overflows t.shape t.dtype.itemSize
  size : (t.data.length : Int) = t.shape.prod * t.dtype.itemSize
  room : max t.data.length 1 ≤ IntKind.isize.max.toNat - (Tensor.alignment - 1)

end TensorRecord

theorem checkShape_of_neg (hshape : ¬ ∀ n ∈ saved.shape, 0 ≤ n) :
    ∃ cause, Tensor.checkShape saved.shape = .error cause := by
  cases hfind : saved.shape.find? (· < 0) with
  | none =>
      have hnone := List.find?_eq_none.mp hfind
      exact absurd (fun n hn => by simpa using hnone n hn) hshape
  | some n => exact ⟨_, by rw [Tensor.checkShape, hfind]⟩

/-- Only the kind of the device is looked at. -/
theorem restore_eq (hhost : saved.device.kind = DeviceKind.cpu.code) :
    (restore saved : Run κ ObjId) = restore (hostRecord saved.dtype saved.shape saved.data) := by
  have hkind : (hostRecord saved.dtype saved.shape saved.data).device.kind = DeviceKind.cpu.code :=
    rfl
  rw [restore, restore, if_neg (not_not_intro hhost), if_neg (not_not_intro hkind)]
  rfl

theorem restore_of_oversized (hsaved : saved.Oversized) (w : World κ) :
    restore saved w = (.error (.panic (.overflow .mul)), w) := by
  have hsize := Tensor.size_of_overflows (t := ownTensor saved.dtype saved.shape []) hsaved.dims
    hsaved.overflows
  have hzeros : Tensor.zeros saved.shape saved.dtype .host w =
      (.error (.panic (.overflow .mul)), w) := by
    rw [Tensor.zeros, run_bind_of_ok (ofExcept_of_ok (checkShape_of_nonneg hsaved.dims))]
    refine (run_bind_of_ok (ofExcept_of_ok rfl)).trans ?_
    refine run_bind_of_error ?_
    show Run.ofFallible (ownTensor saved.dtype saved.shape []).size w = _
    rw [hsize]
    rfl
  rw [restore, if_neg (not_not_intro hsaved.host)]
  exact run_bind_of_error hzeros

theorem restore_of_restorable (hsaved : saved.Restorable) (hknows : w.Knows [.tensor]) :
    ∃ id h, restore saved w = (.ok id, w.withHeap h) := by
  obtain ⟨first, hfirst⟩ := hknows .tensor List.mem_cons_self
  have hsize := Tensor.size_of_fits (t := ownTensor saved.dtype saved.shape saved.data) hsaved.dims
    hsaved.fits
  have hlength : (ownTensor saved.dtype saved.shape saved.data).size = .ok saved.data.length := by
    rw [hsize]
    exact congrArg _ (by rw [← Int.toNat_natCast saved.data.length, hsaved.size]; rfl)
  rw [restore_eq hsaved.host]
  exact ⟨_, _, restore_hostRecord (h := w.heap) hfirst hsaved.dims hlength hsaved.room⟩

/-- Gives a tensor the data of a record, whose number has to be that of its bytes. -/
def fillExactly (saved : TensorRecord) (id : ObjId) : Run κ Unit := do
  let (_, t) ← Tensor.deref (some id)
  let size ← Run.ofFallible t.size
  if size ≠ saved.data.length then
    Run.fail (.blobFormat (.dataSize size saved.shape saved.data.length))
  Tensor.fill id t saved.data

theorem fillExactly_of_size {id : ObjId} {t : Tensor} {size : Nat} (ht : w.tensor? id = some t)
    (hsize : t.size = .ok size) (hlength : size ≠ saved.data.length) :
    fillExactly saved id w =
      (.error (.error (.blobFormat (.dataSize size saved.shape saved.data.length))), w) := by
  rw [fillExactly, run_bind_of_ok (deref_of_tensor? ht)]
  refine (run_bind_of_ok (ofFallible_of_ok hsize)).trans ?_
  rw [if_pos hlength]
  rfl

/-- Every other record is refused. -/
theorem restore_of_neither (hover : ¬ saved.Oversized) (hrest : ¬ saved.Restorable)
    (hknows : w.Knows [.tensor]) : ∃ cause w', restore saved w = (.error (.error cause), w') := by
  obtain ⟨first, hfirst⟩ := hknows .tensor List.mem_cons_self
  by_cases hhost : saved.device.kind = DeviceKind.cpu.code
  swap
  · rw [restore, if_pos hhost]
    exact ⟨_, _, rfl⟩
  by_cases hdims : ∀ n ∈ saved.shape, 0 ≤ n
  swap
  · obtain ⟨cause, hcause⟩ := checkShape_of_neg hdims
    have hzeros : Tensor.zeros saved.shape saved.dtype .host w = (.error (.error cause), w) := by
      rw [Tensor.zeros, hcause]
      rfl
    rw [restore, if_neg (not_not_intro hhost)]
    exact ⟨_, _, run_bind_of_error hzeros⟩
  have hfits : ¬ Layout.Overflows saved.shape saved.dtype.itemSize :=
    fun hover' => hover ⟨hhost, hdims, hover'⟩
  obtain ⟨size, hcount⟩ : ∃ size : Nat, (size : Int) = saved.shape.prod * saved.dtype.itemSize :=
    ⟨_, Int.toNat_of_nonneg (Int.mul_nonneg (List.prod_nonneg hdims) (Int.natCast_nonneg _))⟩
  have hsize : ∀ data, (ownTensor saved.dtype saved.shape data).size = .ok size := fun data =>
    (Tensor.size_of_fits hdims hfits).trans (congrArg _ (by rw [← Int.toNat_natCast size, hcount]; rfl))
  rw [restore, if_neg (not_not_intro hhost)]
  by_cases hroom : max size 1 ≤ IntKind.isize.max.toNat - (Tensor.alignment - 1)
  · -- the size is compared with that of the data only after the tensor has been made
    have hnone : (List.replicate size (0 : UInt8)).length = size := List.length_replicate
    have hzeros := zeros_of_size (h := w.heap) hfirst hdims ((hsize _).trans (congrArg _ hnone.symm))
      (hnone.symm ▸ hroom)
    have hlength : size ≠ saved.data.length := fun hlength =>
      hrest ⟨hhost, hdims, hfits, hlength ▸ hcount, hlength ▸ hroom⟩
    exact ⟨_, _, (run_bind_of_ok hzeros).trans (run_bind_of_error (Run.releasingOnFault_of_error
      (fillExactly_of_size (tensor?_alloc _) (hsize _) hlength)))⟩
  · have hzeros : Tensor.zeros saved.shape saved.dtype .host w =
        (.error (.error (.tensor (.sizeMismatch IntKind.isize.max.toNat size))), w) := by
      rw [Tensor.zeros, run_bind_of_ok (ofExcept_of_ok (checkShape_of_nonneg hdims))]
      refine (run_bind_of_ok (ofExcept_of_ok rfl)).trans ?_
      refine (run_bind_of_ok (ofFallible_of_ok (hsize []))).trans ?_
      rw [if_pos (Nat.not_le.mp hroom)]
      rfl
    exact ⟨_, _, run_bind_of_error hzeros⟩

/-! ## Several tensors -/

/-- A record that is too large stands behind records that are restored only. -/
def MeetsOversized (records : List TensorRecord) : Prop :=
  ∃ before t after, records = before ++ t :: after ∧ (∀ s ∈ before, s.Restorable) ∧ t.Oversized

theorem meetsOversized_cons {records : List TensorRecord} :
    MeetsOversized (saved :: records) ↔
      saved.Oversized ∨ saved.Restorable ∧ MeetsOversized records := by
  constructor
  · rintro ⟨before, t, after, heq, hbefore, ht⟩
    cases before with
    | nil =>
        cases heq
        exact .inl ht
    | cons s before =>
        cases heq
        obtain ⟨hs, hbefore⟩ := List.forall_mem_cons.mp hbefore
        exact .inr ⟨hs, before, t, after, rfl, hbefore, ht⟩
  · rintro (hover | ⟨hs, before, t, after, rfl, hbefore, ht⟩)
    · exact ⟨[], saved, records, rfl, fun s hs => (nomatch hs), hover⟩
    · exact ⟨saved :: before, t, after, rfl, List.forall_mem_cons.mpr ⟨hs, hbefore⟩, ht⟩

/-- What happens to one entry happens after its key has been made. -/
theorem insertAll_cons_of_restorable (name : String) (hsaved : saved.Restorable)
    (hknows : w.Knows [.map, .string, .tensor]) (r : Ref) (rest : List (String × TensorRecord)) :
    ∃ r' h, insertAll r ((name, saved) :: rest) w = insertAll r' rest (w.withHeap h) := by
  obtain ⟨text, htext⟩ := hknows .string (by decide)
  have hkey := Run.create_of_classIndex? (h := w.heap) htext (.text name)
  obtain ⟨value, h₁, hvalue⟩ := restore_of_restorable hsaved
    (w := w.withHeap (w.heap.alloc text (.text name)).1) fun c hc => hknows c (by simp_all)
  obtain ⟨r', h₂, hinsert⟩ := Dict.insert_of_knows (w := w.withHeap h₁)
    (fun c hc => hknows c (by simp at hc ⊢; tauto)) r (some ⟨w.heap.cells.size⟩) (some value)
  refine ⟨r', h₂, run_bind_of_ok (Run.releasingOnFault_of_ok ?_)⟩
  exact (run_bind_of_ok hkey).trans
    ((run_bind_of_ok (Run.releasingOnFault_of_ok hvalue)).trans hinsert)

/-- A record that is not restored ends the reading of the map with its fault. -/
theorem insertAll_cons_of_fault {fault : Fault} {text : Nat} {w' : World κ}
    (name : String) (htext : w.types.classIndex? .string = some text)
    (hsaved : restore saved (w.withHeap (w.heap.alloc text (.text name)).1) = (.error fault, w'))
    (r : Ref) (rest : List (String × TensorRecord)) :
    ∃ w', insertAll r ((name, saved) :: rest) w = (.error fault, w') :=
  have hkey := Run.create_of_classIndex? (h := w.heap) htext (.text name)
  ⟨_, run_bind_of_error (Run.releasingOnFault_of_error ((run_bind_of_ok hkey).trans
    (run_bind_of_error (Run.releasingOnFault_of_error hsaved))))⟩

theorem insertAll_panics_iff {pairs : List (String × TensorRecord)}
    (hknows : w.Knows [.map, .string, .tensor]) :
    (∃ p w', insertAll r pairs w = (.error (.panic p), w')) ↔
      MeetsOversized (pairs.map (·.2)) := by
  induction pairs generalizing w r with
  | nil =>
      constructor
      · rintro ⟨p, w', hrun⟩
        cases hrun
      · rintro ⟨before, t, after, heq, -⟩
        cases before <;> cases heq
  | cons e pairs ih =>
      obtain ⟨name, saved⟩ := e
      obtain ⟨text, htext⟩ := hknows .string (by decide)
      rw [List.map_cons, meetsOversized_cons]
      by_cases hover : saved.Oversized
      · obtain ⟨w', hrun⟩ := insertAll_cons_of_fault name htext
          (restore_of_oversized hover _) r pairs
        exact ⟨fun _ => .inl hover, fun _ => ⟨_, w', hrun⟩⟩
      by_cases hrest : saved.Restorable
      · obtain ⟨r', h, hrun⟩ := insertAll_cons_of_restorable name hrest hknows r pairs
        rw [hrun, ih (w := w.withHeap h) hknows]
        exact ⟨fun h => .inr ⟨hrest, h⟩, fun h => (h.resolve_left hover).2⟩
      · obtain ⟨cause, w₁, hrefused⟩ := restore_of_neither hover hrest
          (w := w.withHeap (w.heap.alloc text (.text name)).1) fun c hc => hknows c (by simp_all)
        obtain ⟨w', hrun⟩ := insertAll_cons_of_fault name htext hrefused r pairs
        constructor
        · rintro ⟨p, w'', hpanic⟩
          rw [hrun] at hpanic
          cases hpanic
        · rintro (h | ⟨h, -⟩)
          · exact absurd h hover
          · exact absurd h hrest

/-! ## Blobs -/

theorem loadTensor_panics_iff (hknows : w.Knows [.tensor]) {blob : Bytes} :
    (∃ p w', loadTensor blob w = (.error (.panic p), w')) ↔
      ∃ t, Step.readAll Step.tensor blob = .ok t ∧ t.Oversized := by
  cases hread : Step.readAll Step.tensor blob with
  | error defect =>
      rw [loadTensor, hread]
      constructor
      · rintro ⟨p, w', hrun⟩
        cases hrun
      · rintro ⟨t, ht, -⟩
        cases ht
  | ok saved =>
      rw [loadTensor, hread]
      have hread' : (∃ t, (.ok saved : Except BlobDefect TensorRecord) = .ok t ∧ t.Oversized) ↔
          saved.Oversized := by simp
      rw [hread']
      by_cases hover : saved.Oversized
      · exact ⟨fun _ => hover, fun _ => ⟨_, w, restore_of_oversized hover w⟩⟩
      refine ⟨?_, fun h => absurd h hover⟩
      rintro ⟨p, w', hrun⟩
      by_cases hrest : saved.Restorable
      · obtain ⟨id, h, hrestored⟩ := restore_of_restorable hrest hknows
        cases hrestored.symm.trans hrun
      · obtain ⟨cause, w₁, hrefused⟩ := restore_of_neither hover hrest hknows
        cases hrefused.symm.trans hrun

/-- A new map without entries stands at the end of the heap. -/
theorem ofList_nil {first : Nat} (hfirst : w.types.classIndex? .map = some first) :
    Dict.ofList [] w =
      (.ok (some ⟨w.heap.cells.size⟩), w.withHeap (w.heap.alloc first (.map [])).1) :=
  run_bind_of_ok (Run.create_of_classIndex? (h := w.heap) hfirst (.map []))

theorem loadParams_panics_iff (hknows : w.Knows [.map, .string, .tensor]) {blob : Bytes} :
    (∃ p w', loadParams blob w = (.error (.panic p), w')) ↔
      ∃ p, Step.readAll Step.params blob = .ok p ∧ p.names.length = p.tensors.length ∧
        MeetsOversized p.tensors := by
  cases hread : Step.readAll Step.params blob with
  | error defect =>
      rw [loadParams_of_defect hread]
      constructor
      · rintro ⟨p, w', hrun⟩
        cases hrun
      · rintro ⟨p, hp, -⟩
        cases hp
  | ok saved =>
      have hread' : (∃ p, (.ok saved : Except BlobDefect ParamRecord) = .ok p ∧
          p.names.length = p.tensors.length ∧ MeetsOversized p.tensors) ↔
          saved.names.length = saved.tensors.length ∧ MeetsOversized saved.tensors := by simp
      rw [hread']
      by_cases hcount : saved.names.length = saved.tensors.length
      · obtain ⟨first, hfirst⟩ := hknows .map (by decide)
        have hpairs : (saved.names.zip saved.tensors).map (·.2) = saved.tensors :=
          List.map_snd_zip (Nat.le_of_eq hcount.symm)
        rw [loadParams_of_read hread hcount, run_bind_of_ok (ofList_nil hfirst),
          insertAll_panics_iff
          (w := w.withHeap (w.heap.alloc first (.map [])).1) hknows, hpairs]
        exact (and_iff_right hcount).symm
      · rw [loadParams_of_counts hread hcount]
        constructor
        · rintro ⟨p, w', hrun⟩
          cases hrun
        · exact fun h => absurd h.1 hcount

/-- Reading a blob is given up exactly if it holds a tensor whose size cannot be computed, which is
tried before that size is compared with the number of bytes that are there.  In a list of tensors
those before it have been restored by then. -/
theorem loading_panics_iff (hknows : w.Knows [.map, .string, .tensor]) (blob : Bytes) :
    ((∃ p w', loadTensor blob w = (.error (.panic p), w')) ↔
      ∃ t, Step.readAll Step.tensor blob = .ok t ∧ t.Oversized) ∧
    ((∃ p w', loadParams blob w = (.error (.panic p), w')) ↔
      ∃ p, Step.readAll Step.params blob = .ok p ∧ p.names.length = p.tensors.length ∧
        MeetsOversized p.tensors) :=
  ⟨loadTensor_panics_iff fun c hc => hknows c (by simp_all), loadParams_panics_iff hknows⟩

/-- A square with 2^40 elements on each side, and no data. -/
def vastSquare : TensorRecord := hostRecord .float32 [2 ^ 40, 2 ^ 40] []

/-- A list with this tensor alone. -/
def vastParams : ParamRecord := ⟨[""], [vastSquare]⟩

theorem vastSquare_panics :
    (∃ w', loadTensor vastSquare.encode (World.initial : World Empty) =
      (.error (.panic (.overflow .mul)), w')) ∧
    ∃ w', loadParams vastParams.encode (World.initial : World Empty) =
      (.error (.panic (.overflow .mul)), w') := by
  have hread : Step.readAll Step.params vastParams.encode = .ok vastParams := by decide +kernel
  refine ⟨⟨_, rfl⟩, ?_⟩
  rw [loadParams, hread]
  exact ⟨_, rfl⟩

/-- A world without objects in which the classes of parameters are known. -/
def parameterWorld : World Empty :=
  { World.initial with
    types := [.map, .string, .tensor].foldl (fun t c => (t.touch c).2) .initial }

theorem vastSquare_oversized : vastSquare.Oversized where
  host := rfl
  dims := by decide
  overflows := .inl ⟨2, by decide⟩

/-- Reading the tensor or the list with it is given up in a world that knows the classes. -/
theorem vastSquare_loading_panics :
    parameterWorld.Knows [.map, .string, .tensor] ∧
      (∃ p w', loadTensor vastSquare.encode parameterWorld = (.error (.panic p), w')) ∧
      ∃ p w', loadParams vastParams.encode parameterWorld = (.error (.panic p), w') := by
  have hknows : parameterWorld.Knows [.map, .string, .tensor] := by
    intro c hc
    simp only [List.mem_cons, List.not_mem_nil, or_false] at hc
    rcases hc with rfl | rfl | rfl
    all_goals exact ⟨_, rfl⟩
  have htensor : Step.readAll Step.tensor vastSquare.encode = .ok vastSquare := by decide +kernel
  have hparams : Step.readAll Step.params vastParams.encode = .ok vastParams := by decide +kernel
  refine ⟨hknows, (loading_panics_iff hknows _).1.mpr ⟨vastSquare, htensor, vastSquare_oversized⟩,
    (loading_panics_iff hknows _).2.mpr ⟨vastParams, hparams, rfl, [], vastSquare, [], rfl, ?_,
      vastSquare_oversized⟩⟩
  exact fun s hs => nomatch hs

end Blob

end ObjectRuntime
