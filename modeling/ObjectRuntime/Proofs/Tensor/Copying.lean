import ObjectRuntime.Boundary.Entry
import ObjectRuntime.Proofs.Tensor.Oversized
import ObjectRuntime.Proofs.Tensor.Sharing
set_option autoImplicit false

/-!
# Two ways to copy a tensor

A tensor that is copied inside the runtime is copied byte for byte: `Tensor.size` rounds each element
up to whole bytes.  The entry point for callers outside counts the bits of all elements and rounds
once (`Layout.dataSize`).  For elements of whole bytes that is the same.  For smaller ones the entry
point leaves the end of the target as it was, and takes tensors for equally large that are not.
-/

namespace ObjectRuntime

variable {κ : Type} {w w' : World κ} {a b id : ObjId} {s t : Tensor} {n size : Nat}

/-! ## Sizes -/

namespace Tensor

/-- The number of bytes that the elements span if their bits are packed. -/
def span (t : Tensor) : Except Fault Nat := Layout.dataSize t.shape t.dtype

theorem fits_usize (m : Int) : IntKind.usize.Fits m ↔ 0 ≤ m ∧ m ≤ 18446744073709551615 :=
  Iff.rfl

/-- The number of bytes is the number of elements times that of one, if it is a word. -/
theorem size_eq_ok : t.size = .ok n ↔ ∃ count, t.length = .ok count ∧
    IntKind.usize.Fits (count * t.dtype.itemSize : Nat) ∧ n = count * t.dtype.itemSize := by
  rw [Tensor.size, bind_eq_ok]
  simp only [bind_eq_ok, checkedOp, pure, Except.pure, Except.ok.injEq, Nat.cast_mul]
  constructor
  · rintro ⟨count, hcount, total, htotal, rfl⟩
    split at htotal
    · rename_i hfits
      cases htotal
      exact ⟨count, hcount, hfits, by norm_cast⟩
    · cases htotal
  · rintro ⟨count, hcount, hfits, rfl⟩
    exact ⟨count, hcount, count * t.dtype.itemSize, by rw [if_pos hfits], by norm_cast⟩

/-- The number of bytes that are spanned is that of the bits, rounded up, if it can be computed. -/
theorem span_eq_ok : t.span = .ok n ↔ ∃ count, t.length = .ok count ∧
    IntKind.usize.Fits (count * t.dtype.totalBits + 7 : Nat) ∧
    n = (count * t.dtype.totalBits + 7) / 8 := by
  simp only [span, Layout.dataSize, length, bind_eq_ok, checkedOp, pure, Except.pure,
    Except.ok.injEq, fits_usize]
  constructor
  · rintro ⟨count, hcount, bits, hbits, padded, hpadded, rfl⟩
    obtain ⟨words, hwords⟩ := Int.eq_ofNat_of_zero_le (IntKind.usize.fits_wrap count).1
    rw [hwords] at hbits
    split at hbits
    · cases hbits
      split at hpadded
      · rename_i hfits
        cases hpadded
        refine ⟨words, ⟨count, hcount, by rw [hwords]; rfl⟩, by exact_mod_cast hfits, ?_⟩
        norm_cast
      · cases hpadded
    · cases hbits
  · rintro ⟨words, ⟨count, hcount, hwords⟩, hfits, rfl⟩
    have hword : IntKind.usize.wrap count = words := by
      rw [← hwords, Int.toNat_of_nonneg (IntKind.usize.fits_wrap count).1]
    refine ⟨count, hcount, words * t.dtype.totalBits, ?_, words * t.dtype.totalBits + 7, ?_, ?_⟩
    · rw [hword, if_pos]
      constructor
      · positivity
      · have := hfits.2
        push_cast at this
        omega
    · rw [if_pos]
      exact_mod_cast hfits
    · norm_cast

/-- Rounding once never gives more than rounding for each element. -/
theorem span_le_size (hspan : t.span = .ok n) (hsize : t.size = .ok size) : n ≤ size := by
  obtain ⟨count, hcount, -, rfl⟩ := span_eq_ok.mp hspan
  obtain ⟨count', hcount', -, rfl⟩ := size_eq_ok.mp hsize
  obtain rfl := Except.ok.inj (hcount.symm.trans hcount')
  have hitem : t.dtype.totalBits ≤ 8 * t.dtype.itemSize := by
    rw [DataType.itemSize]
    omega
  have hbits : count * t.dtype.totalBits ≤ 8 * (count * t.dtype.itemSize) :=
    (Nat.mul_le_mul_left count hitem).trans_eq (Nat.mul_left_comm _ _ _)
  omega

/-- For elements of whole bytes there is nothing to round. -/
theorem span_of_whole_bytes (hwhole : t.dtype.totalBits % 8 = 0) (hsize : t.size = .ok size)
    (hfits : 8 * size + 7 ≤ 18446744073709551615) : t.span = .ok size := by
  obtain ⟨count, hcount, -, rfl⟩ := size_eq_ok.mp hsize
  have hitem : t.dtype.totalBits = 8 * t.dtype.itemSize := by
    rw [DataType.itemSize]
    omega
  have hbits : count * t.dtype.totalBits = 8 * (count * t.dtype.itemSize) := by
    rw [hitem, Nat.mul_left_comm]
  refine span_eq_ok.mpr ⟨count, hcount, (fits_usize _).mpr ⟨Int.natCast_nonneg _, ?_⟩, ?_⟩
  · rw [hbits]
    exact_mod_cast hfits
  · rw [hbits]
    omega

/-- A tensor of zeros is refused, or its bytes go into a new object. -/
theorem zeros_cases (shape : List Int) (dtype : DataType) (device : Device) (w : World κ) :
    (∃ fault, zeros shape dtype device w = (.error fault, w)) ∨
    ∃ data, (∀ n ∈ shape, 0 ≤ n) ∧
      (⟨shape, dtype, device.toRaw.unit, 0, .owned data⟩ : Tensor).size = .ok data.length ∧
      zeros shape dtype device w = Run.create .tensor
        (.tensor ⟨shape, dtype, device.toRaw.unit, 0, .owned data⟩) w := by
  rw [zeros]
  cases hshape : checkShape shape with
  | error cause =>
      exact .inl ⟨_, run_bind_of_error rfl⟩
  | ok =>
  have hnonneg : ∀ n ∈ shape, 0 ≤ n := by
    by_contra hneg
    have hrecord : ¬ ∀ n ∈ (⟨device.toRaw, dtype, shape, []⟩ : Blob.TensorRecord).shape, 0 ≤ n := hneg
    obtain ⟨cause, hcause⟩ := Blob.checkShape_of_neg hrecord
    rw [hshape] at hcause
    cases hcause
  rw [run_bind_of_ok (Blob.ofExcept_of_ok rfl)]
  cases hhost : checkHost device.toRaw with
  | error cause => exact .inl ⟨_, run_bind_of_error rfl⟩
  | ok =>
  rw [run_bind_of_ok (Blob.ofExcept_of_ok rfl)]
  cases hsize : (⟨shape, dtype, device.toRaw.unit, 0, .owned []⟩ : Tensor).size with
  | error fault => exact .inl ⟨fault, run_bind_of_error rfl⟩
  | ok size =>
  rw [run_bind_of_ok (Blob.ofFallible_of_ok rfl)]
  split
  · exact .inl ⟨_, run_bind_of_error rfl⟩
  · refine .inr ⟨List.replicate size 0, hnonneg, ?_, rfl⟩
    rw [List.length_replicate]
    exact hsize

end Tensor

/-! ## Tensors of the runtime -/

/-- The tensor keeps its memory, or shares that of one that does, and its elements fill the memory. -/
structure World.Spans (w : World κ) (id : ObjId) (t : Tensor) : Prop where
  found : w.tensor? id = some t
  keeps : w.KeepsMemory id
  start : t.byteOffset = 0
  size : t.size = .ok (w.memoryBytes id).length

namespace World.Spans

/-- The bytes of the elements are those of the memory. -/
theorem tensorBytes (h : w.Spans id t) : w.tensorBytes id t = .ok (w.memoryBytes id) := by
  rw [World.tensorBytes_of_size h.size, h.start, List.drop_zero, List.take_length]

/-- Every new tensor is one. -/
theorem of_zeros {shape : List Int} {dtype : DataType} {device : Device}
    (hrun : Tensor.zeros shape dtype device w = (.ok id, w')) : ∃ t, w'.Spans id t := by
  rcases Tensor.zeros_cases shape dtype device w with ⟨fault, hrefused⟩ |
      ⟨data, -, hsize, hcreate⟩
  · rw [hrefused] at hrun
    cases hrun
  · obtain ⟨first, w₁, -, -, -, rfl, rfl⟩ := Run.create_inv (hcreate.symm.trans hrun)
    have hnew : (w₁.withHeap (w.heap.alloc first (.tensor
        ⟨shape, dtype, device.toRaw.unit, 0, .owned data⟩)).1).tensor? ⟨w.heap.cells.size⟩ =
          some ⟨shape, dtype, device.toRaw.unit, 0, .owned data⟩ := Blob.tensor?_alloc _
    have hhome := (World.home_of_source? hnew rfl).symm ▸ hnew
    refine ⟨_, hnew, ⟨_, hhome, rfl⟩, rfl, ?_⟩
    have hbytes := World.memoryBytes_of_home hhome
    exact hsize.trans (congrArg (fun bytes : Bytes => Except.ok bytes.length) hbytes.symm)

end World.Spans

/-! ## Copying inside -/

open World (Spans)

namespace Tensor

/-- Inside the runtime a tensor is copied as a whole if the target has as many bytes. -/
theorem copyFrom_of_size (ha : w.Spans a s) (hb : w.Spans b t)
    (hsize : (w.memoryBytes a).length = (w.memoryBytes b).length) :
    copyFrom b a w = (.ok (), w.withMemory b (w.memoryBytes a)) := by
  rw [copyFrom]
  split
  · rename_i hsame
    subst hsame
    rw [World.withMemory_memoryBytes hb.keeps]
    rfl
  · rw [run_bind_of_ok (Blob.deref_of_tensor? ha.found)]
    simp only
    rw [run_get_bind, run_bind_of_ok (Blob.ofFallible_of_ok ha.tensorBytes),
      run_bind_of_ok (Blob.deref_of_tensor? hb.found)]
    simp only
    rw [fill, run_bind_of_ok (Blob.ofFallible_of_ok hb.size), if_neg (not_not_intro hsize.symm),
      hb.start]
    refine (writeMemory_eq hb.keeps 0 _).trans ?_
    rw [Bytes.overwrite_all _ _ hsize.symm]

/-- Otherwise the copy is refused. -/
theorem copyFrom_of_other_size (ha : w.Spans a s) (hb : w.Spans b t)
    (hsize : (w.memoryBytes a).length ≠ (w.memoryBytes b).length) :
    ∃ fault, copyFrom b a w = (.error fault, w) := by
  rw [copyFrom, if_neg (fun hsame => hsize (by rw [hsame]))]
  rw [run_bind_of_ok (Blob.deref_of_tensor? ha.found)]
  simp only
  rw [run_get_bind, run_bind_of_ok (Blob.ofFallible_of_ok ha.tensorBytes),
    run_bind_of_ok (Blob.deref_of_tensor? hb.found)]
  simp only
  rw [fill, run_bind_of_ok (Blob.ofFallible_of_ok hb.size), if_pos (Ne.symm hsize)]
  exact ⟨_, rfl⟩

end Tensor

/-! ## Copying from outside -/

namespace Boundary

theorem guarded_of_ok {α : Type} {body : Run κ α} {out : α} (hbody : body w = (.ok out, w')) :
    guarded body w = (.ok (.success out), w') := by
  have houtcome : Run.outcome body w = (.ok (.ok out), w') := by rw [Run.outcome, hbody]
  rw [guarded, run_bind_of_ok houtcome]
  rfl

theorem guarded_of_error {α : Type} {body : Run κ α} {fault : Fault}
    (hbody : body w = (.error fault, w')) :
    guarded body w =
      (.ok .failure, { w' with lastError := errorText fault.toError.message }) := by
  have houtcome : Run.outcome body w = (.ok (.error fault), w') := by rw [Run.outcome, hbody]
  rw [guarded, run_bind_of_ok houtcome]
  rfl

/-- What goes wrong is the last error from then on. -/
theorem guarded_fails {α : Type} {body : Run κ α} (hbody : ∃ fault, body w = (.error fault, w)) :
    ∃ message, guarded body w = (.ok .failure, { w with lastError := message }) := by
  obtain ⟨fault, hbody⟩ := hbody
  exact ⟨_, guarded_of_error hbody⟩

/-- A tensor of the runtime as it lies in memory. -/
def viewOf (w : World κ) (id : ObjId) (t : Tensor) : PlainTensor :=
  ⟨t.shape, none, t.dtype, ⟨DeviceKind.cpu.code, t.unit⟩, t.byteOffset, w.memoryBytes id⟩

theorem viewTensor_of_found (h : w.tensor? id = some t) :
    viewTensor (.object id) w = (.ok (viewOf w id t), w) := by
  rw [viewTensor]
  simp only
  rw [run_bind_of_ok (Blob.deref_of_tensor? h)]
  rfl

/-- It can always be copied. -/
theorem checkCopy_viewOf (w₁ : World κ) (id : ObjId) (t : Tensor) :
    checkCopy (viewOf w₁ id t) w = (.ok (), w) := by
  have hhost : (viewOf w₁ id t).device.kind = DeviceKind.cpu.code := rfl
  rw [checkCopy, if_neg (not_not_intro hhost)]
  exact run_bind_of_ok (Blob.ofFallible_of_ok rfl)

/-- Two operations that do the same do so for callers outside. -/
theorem guarded_congr {α : Type} {body body' : Run κ α} (h : body w = body' w) :
    guarded body w = guarded body' w := by
  rcases hbody : body' w with ⟨fault | out, w'⟩
  · rw [guarded_of_error (h.trans hbody), guarded_of_error hbody]
  · rw [guarded_of_ok (h.trans hbody), guarded_of_ok hbody]

/-- What is left to do once both tensors have been looked at. -/
theorem copyTensor_of_spans (ha : w.Spans a s) (hb : w.Spans b t) :
    copyTensor (some (.object a)) (some (.object b)) w = guarded (do
      let fromSize ← Run.ofFallible s.span
      let toSize ← Run.ofFallible t.span
      if fromSize ≠ toSize then Run.fail (.tensor (.sizeMismatch toSize fromSize))
      Tensor.writeMemory b 0 ((w.memoryBytes a).take fromSize)
      return TensorHandle.object b) w := by
  refine guarded_congr ?_
  simp only
  rw [run_bind_of_ok (viewTensor_of_found ha.found), run_bind_of_ok (viewTensor_of_found hb.found),
    run_bind_of_ok (checkCopy_viewOf w a s), run_bind_of_ok (checkCopy_viewOf w b t)]
  simp only [viewOf, ha.start, hb.start, List.drop_zero]
  rfl

/-- From outside as many bytes are copied as both tensors span. -/
theorem copyTensor_of_span (ha : w.Spans a s) (hb : w.Spans b t) (hs : s.span = .ok n)
    (ht : t.span = .ok n) : copyTensor (some (.object a)) (some (.object b)) w =
      (.ok (.success (.object b)), w.withMemory b
        ((w.memoryBytes a).take n ++ (w.memoryBytes b).drop n)) := by
  have hn : n ≤ (w.memoryBytes a).length := Tensor.span_le_size hs ha.size
  rw [copyTensor_of_spans ha hb]
  refine guarded_of_ok ?_
  rw [run_bind_of_ok (Blob.ofFallible_of_ok hs), run_bind_of_ok (Blob.ofFallible_of_ok ht),
    if_neg (not_not_intro rfl)]
  refine (run_bind_of_ok (Tensor.writeMemory_eq hb.keeps 0 _)).trans ?_
  have hbytes : Bytes.overwrite (w.memoryBytes b) 0 ((w.memoryBytes a).take n) =
      (w.memoryBytes a).take n ++ (w.memoryBytes b).drop n := by
    simp [Bytes.overwrite, Nat.min_eq_left hn]
  rw [hbytes]
  rfl

/-- If they do not span equally many the copy fails, and nothing but the last error changes. -/
theorem copyTensor_of_other_span (ha : w.Spans a s) (hb : w.Spans b t)
    (h : ¬ ∃ n, s.span = .ok n ∧ t.span = .ok n) :
    ∃ message, copyTensor (some (.object a)) (some (.object b)) w =
      (.ok .failure, { w with lastError := message }) := by
  rw [copyTensor_of_spans ha hb]
  refine guarded_fails ?_
  cases hs : s.span with
  | error fault => exact ⟨fault, run_bind_of_error rfl⟩
  | ok n =>
  rw [run_bind_of_ok (Blob.ofFallible_of_ok rfl)]
  cases ht : t.span with
  | error fault => exact ⟨fault, run_bind_of_error rfl⟩
  | ok m =>
  have hne : n ≠ m := by
    rintro rfl
    exact h ⟨n, hs, ht⟩
  rw [run_bind_of_ok (Blob.ofFallible_of_ok rfl), if_pos hne]
  exact ⟨.error (.tensor (.sizeMismatch m n)), run_bind_of_error rfl⟩

/-! ## Agreement -/

/-- The copy from outside is the one inside: it succeeds for the same tensors, the target then shows
the bytes of the source and nothing else has changed, and if it fails nothing but the last error
has. -/
structure CopyAgrees (w : World κ) (a b : ObjId) (s t : Tensor) : Prop where
  succeeds : (∃ w', copyTensor (some (.object a)) (some (.object b)) w =
    (.ok (.success (.object b)), w')) ↔ ∃ w', Tensor.copyFrom b a w = (.ok (), w')
  copies : ∀ w', copyTensor (some (.object a)) (some (.object b)) w =
    (.ok (.success (.object b)), w') →
      w'.tensorBytes b t = w.tensorBytes a s ∧ ∃ data, w' = w.withMemory b data
  fails : ∀ w', copyTensor (some (.object a)) (some (.object b)) w = (.ok .failure, w') →
    w' = { w with lastError := w'.lastError }

/-- A copy inside succeeds exactly for tensors of as many bytes. -/
theorem copyFrom_succeeds_iff (ha : w.Spans a s) (hb : w.Spans b t) :
    (∃ w', Tensor.copyFrom b a w = (.ok (), w')) ↔ s.size = t.size := by
  rw [ha.size, hb.size, Except.ok.injEq]
  by_cases hsize : (w.memoryBytes a).length = (w.memoryBytes b).length
  · exact iff_of_true ⟨_, Tensor.copyFrom_of_size ha hb hsize⟩ hsize
  · refine iff_of_false ?_ hsize
    rintro ⟨w', hrun⟩
    obtain ⟨fault, hrefused⟩ := Tensor.copyFrom_of_other_size ha hb hsize
    rw [hrefused] at hrun
    cases hrun

/-- What the target shows after a copy of so many bytes. -/
theorem tensorBytes_withMemory (hb : w.Spans b t) {data : Bytes}
    (hlength : data.length = (w.memoryBytes b).length) :
    (w.withMemory b data).tensorBytes b t = .ok data := by
  rw [World.tensorBytes_of_size hb.size, hb.start, World.memoryBytes_withMemory hb.keeps rfl,
    List.drop_zero, ← hlength, List.take_length]

/-- A copy from outside succeeds exactly for tensors that span as many bytes. -/
theorem copyTensor_succeeds_iff (ha : w.Spans a s) (hb : w.Spans b t) :
    (∃ w', copyTensor (some (.object a)) (some (.object b)) w =
      (.ok (.success (.object b)), w')) ↔ ∃ n, s.span = .ok n ∧ t.span = .ok n := by
  constructor
  · rintro ⟨w', hrun⟩
    by_contra hother
    obtain ⟨message, hfailed⟩ := copyTensor_of_other_span ha hb hother
    rw [hfailed] at hrun
    cases hrun
  · rintro ⟨n, hs, ht⟩
    exact ⟨_, copyTensor_of_span ha hb hs ht⟩

/-- What the target shows after a copy from outside. -/
theorem tensorBytes_of_span (ha : w.Spans a s) (hb : w.Spans b t) (hs : s.span = .ok n)
    (ht : t.span = .ok n) :
    (w.withMemory b ((w.memoryBytes a).take n ++ (w.memoryBytes b).drop n)).tensorBytes b t =
      .ok ((w.memoryBytes a).take n ++ (w.memoryBytes b).drop n) := by
  have hsource : n ≤ (w.memoryBytes a).length := Tensor.span_le_size hs ha.size
  have htarget : n ≤ (w.memoryBytes b).length := Tensor.span_le_size ht hb.size
  refine tensorBytes_withMemory hb ?_
  rw [List.length_append, List.length_take, List.length_drop]
  omega

/-- The two copies agree exactly if the tensors span equally many bytes whenever they have equally
many, and no others do, and the bytes that are not spanned were the same before. -/
theorem copyAgrees_iff (ha : w.Spans a s) (hb : w.Spans b t) :
    CopyAgrees w a b s t ↔
      ((∃ n, s.span = .ok n ∧ t.span = .ok n) ↔ s.size = t.size) ∧
      ∀ n, s.span = .ok n → t.span = .ok n →
        (w.memoryBytes b).drop n = (w.memoryBytes a).drop n := by
  constructor
  · intro h
    refine ⟨?_, fun n hs ht => ?_⟩
    · rw [← copyTensor_succeeds_iff ha hb, ← copyFrom_succeeds_iff ha hb]
      exact h.succeeds
    · obtain ⟨hbytes, -⟩ := h.copies _ (copyTensor_of_span ha hb hs ht)
      rw [tensorBytes_of_span ha hb hs ht, ha.tensorBytes, Except.ok.injEq] at hbytes
      exact List.append_cancel_left (hbytes.trans (List.take_append_drop n _).symm)
  · rintro ⟨hsizes, hrest⟩
    refine ⟨?_, fun w' hrun => ?_, fun w' hrun => ?_⟩
    · rw [copyTensor_succeeds_iff ha hb, copyFrom_succeeds_iff ha hb]
      exact hsizes
    · obtain ⟨n, hs, ht⟩ := (copyTensor_succeeds_iff ha hb).mp ⟨w', hrun⟩
      rw [copyTensor_of_span ha hb hs ht] at hrun
      cases hrun
      rw [tensorBytes_of_span ha hb hs ht, ha.tensorBytes, hrest n hs ht, List.take_append_drop]
      exact ⟨rfl, _, rfl⟩
    · by_cases hspans : ∃ n, s.span = .ok n ∧ t.span = .ok n
      · obtain ⟨n, hs, ht⟩ := hspans
        rw [copyTensor_of_span ha hb hs ht] at hrun
        cases hrun
      · obtain ⟨message, hfailed⟩ := copyTensor_of_other_span ha hb hspans
        rw [hfailed] at hrun
        cases hrun
        rfl

/-- For elements of whole bytes they agree, unless the number of bits cannot be computed. -/
theorem copyAgrees_of_whole_bytes (ha : w.Spans a s) (hb : w.Spans b t)
    (hs : s.dtype.totalBits % 8 = 0) (ht : t.dtype.totalBits % 8 = 0)
    (hsource : 8 * (w.memoryBytes a).length + 7 ≤ 18446744073709551615)
    (htarget : 8 * (w.memoryBytes b).length + 7 ≤ 18446744073709551615) :
    CopyAgrees w a b s t := by
  have hspan := Tensor.span_of_whole_bytes hs ha.size hsource
  have hspan' := Tensor.span_of_whole_bytes ht hb.size htarget
  refine (copyAgrees_iff ha hb).mpr ⟨?_, fun n hn hn' => ?_⟩
  · rw [hspan, hspan', ha.size, hb.size]
    simp [eq_comm]
  · obtain rfl := Except.ok.inj (hspan.symm.trans hn)
    obtain hlength := Except.ok.inj (hspan'.symm.trans hn')
    rw [List.drop_length, ← hlength, List.drop_length]

/-- A copy inside copies the whole tensor if the target has as many bytes and is refused otherwise.
The copy from outside agrees with it exactly if, of these two tensors, the number of packed bytes can
be computed and is the same whenever the number of bytes is and not otherwise, and the bytes behind
the packed ones are the same already; so it does for elements of whole bytes. -/
theorem copies_agree_iff (ha : w.Spans a s) (hb : w.Spans b t) :
    ((∃ w', Tensor.copyFrom b a w = (.ok (), w')) ↔ s.size = t.size) ∧
    (∀ w', Tensor.copyFrom b a w = (.ok (), w') →
      w'.tensorBytes b t = w.tensorBytes a s ∧ ∃ data, w' = w.withMemory b data) ∧
    (CopyAgrees w a b s t ↔
      ((∃ n, s.span = .ok n ∧ t.span = .ok n) ↔ s.size = t.size) ∧
      ∀ n, s.span = .ok n → t.span = .ok n →
        (w.memoryBytes b).drop n = (w.memoryBytes a).drop n) ∧
    (s.dtype.totalBits % 8 = 0 → t.dtype.totalBits % 8 = 0 →
      8 * (w.memoryBytes a).length + 7 ≤ 18446744073709551615 →
      8 * (w.memoryBytes b).length + 7 ≤ 18446744073709551615 → CopyAgrees w a b s t) := by
  refine ⟨copyFrom_succeeds_iff ha hb, fun w' hrun => ?_, copyAgrees_iff ha hb,
    copyAgrees_of_whole_bytes ha hb⟩
  have hsize := (copyFrom_succeeds_iff ha hb).mp ⟨w', hrun⟩
  rw [ha.size, hb.size, Except.ok.injEq] at hsize
  rw [Tensor.copyFrom_of_size ha hb hsize] at hrun
  cases hrun
  exact ⟨(tensorBytes_withMemory hb hsize).trans ha.tensorBytes.symm, _, rfl⟩

/-- Two new tensors of one shape, over some bytes each. -/
def tensorPair (dtype : DataType) (shape : List Int) (source target : Bytes) : World Unit :=
  World.initial.withHeap
    ((Heap.empty.alloc 2 (.tensor (Blob.ownTensor dtype shape source))).1.alloc 2
      (.tensor (Blob.ownTensor dtype shape target))).1

variable {dtype : DataType} {shape : List Int} {source target : Bytes}

theorem spans_source (hsize : (Blob.ownTensor dtype shape source).size = .ok source.length) :
    (tensorPair dtype shape source target).Spans ⟨0⟩ (Blob.ownTensor dtype shape source) :=
  ⟨rfl, ⟨_, rfl, rfl⟩, rfl, hsize⟩

theorem spans_target (hsize : (Blob.ownTensor dtype shape target).size = .ok target.length) :
    (tensorPair dtype shape source target).Spans ⟨1⟩ (Blob.ownTensor dtype shape target) :=
  ⟨rfl, ⟨_, rfl, rfl⟩, rfl, hsize⟩

/-- Two bytes are copied over two others. -/
theorem twoBytes_copies_agree :
    (tensorPair ⟨1, 8, 1⟩ [2] [5, 6] [0, 0]).Spans ⟨0⟩ (Blob.ownTensor ⟨1, 8, 1⟩ [2] [5, 6]) ∧
    (tensorPair ⟨1, 8, 1⟩ [2] [5, 6] [0, 0]).Spans ⟨1⟩ (Blob.ownTensor ⟨1, 8, 1⟩ [2] [0, 0]) ∧
    CopyAgrees (tensorPair ⟨1, 8, 1⟩ [2] [5, 6] [0, 0]) ⟨0⟩ ⟨1⟩
      (Blob.ownTensor ⟨1, 8, 1⟩ [2] [5, 6]) (Blob.ownTensor ⟨1, 8, 1⟩ [2] [0, 0]) := by
  have ha : (tensorPair ⟨1, 8, 1⟩ [2] [5, 6] [0, 0]).Spans ⟨0⟩
      (Blob.ownTensor ⟨1, 8, 1⟩ [2] [5, 6]) := spans_source rfl
  have hb : (tensorPair ⟨1, 8, 1⟩ [2] [5, 6] [0, 0]).Spans ⟨1⟩
      (Blob.ownTensor ⟨1, 8, 1⟩ [2] [0, 0]) := spans_target rfl
  obtain ⟨-, -, -, hwhole⟩ := copies_agree_iff ha hb
  exact ⟨ha, hb, hwhole (by decide) (by decide) (by decide +kernel) (by decide +kernel)⟩

/-- Of three truth values one is copied from outside, since three bits fit into one byte. -/
theorem threeFlags_copies_differ :
    (tensorPair ⟨1, 1, 1⟩ [3] [1, 1, 1] [0, 0, 0]).Spans ⟨0⟩
      (Blob.ownTensor ⟨1, 1, 1⟩ [3] [1, 1, 1]) ∧
    (tensorPair ⟨1, 1, 1⟩ [3] [1, 1, 1] [0, 0, 0]).Spans ⟨1⟩
      (Blob.ownTensor ⟨1, 1, 1⟩ [3] [0, 0, 0]) ∧
    ¬ CopyAgrees (tensorPair ⟨1, 1, 1⟩ [3] [1, 1, 1] [0, 0, 0]) ⟨0⟩ ⟨1⟩
      (Blob.ownTensor ⟨1, 1, 1⟩ [3] [1, 1, 1]) (Blob.ownTensor ⟨1, 1, 1⟩ [3] [0, 0, 0]) := by
  have ha : (tensorPair ⟨1, 1, 1⟩ [3] [1, 1, 1] [0, 0, 0]).Spans ⟨0⟩
      (Blob.ownTensor ⟨1, 1, 1⟩ [3] [1, 1, 1]) := spans_source rfl
  have hb : (tensorPair ⟨1, 1, 1⟩ [3] [1, 1, 1] [0, 0, 0]).Spans ⟨1⟩
      (Blob.ownTensor ⟨1, 1, 1⟩ [3] [0, 0, 0]) := spans_target rfl
  refine ⟨ha, hb, fun hagrees => ?_⟩
  obtain ⟨-, hrest⟩ := (copyAgrees_iff ha hb).mp hagrees
  have hspans : (Blob.ownTensor ⟨1, 1, 1⟩ [3] [1, 1, 1]).span = .ok 1 := rfl
  exact absurd (hrest 1 hspans hspans) (by decide)

end Boundary

end ObjectRuntime
