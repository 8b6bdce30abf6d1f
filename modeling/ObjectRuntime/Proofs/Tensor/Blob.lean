import ObjectRuntime.Tensor.Blob
import Mathlib
set_option autoImplicit false

/-!
# Tensors read back from blobs

`Step.Reads` says that a step reads something from the front of the bytes that write it and hands on
whatever stands behind them, so steps that read their bytes can be put one after another.
-/

namespace ObjectRuntime

theorem Bytes.toNat_ofNat (width n : Nat) :
    Bytes.toNat (Bytes.ofNat width n) = n % 256 ^ width := by
  induction width generalizing n with
  | zero => simp [Bytes.ofNat, Bytes.toNat, Nat.mod_one]
  | succ width ih =>
      have hlow : (UInt8.ofNat (n % 256)).toNat = n % 256 := by simp
      rw [Bytes.ofNat, Bytes.toNat, ih, hlow, Nat.pow_succ', Nat.mod_mul]

theorem Bytes.ofInt_natCast {width n : Nat} (h : n < Nat.pow 256 width) :
    Bytes.ofInt width n = Bytes.ofNat width n := by
  rw [Bytes.ofInt, ← Int.natCast_emod, Nat.mod_eq_of_lt h, Int.toNat_natCast]

namespace Blob

namespace Step

variable {α β : Type} {step : Step α} {next : α → Step β} {bs bs' : Bytes} {a : α} {b : β}
  {k : IntKind} {n : Int}

/-- The step reads `a` from the bytes `bs` and nothing more. -/
def Reads (step : Step α) (bs : Bytes) (a : α) : Prop :=
  ∀ total rest, step total (bs ++ rest) = .ok (a, rest)

theorem Reads.pure (a : α) : Reads (Pure.pure a : Step α) [] a := fun _ _ => rfl

theorem Reads.bind (hfirst : Reads step bs a) (hnext : Reads (next a) bs' b) :
    Reads (step >>= next) (bs ++ bs') b := by
  intro total rest
  have hstep : step total (bs ++ (bs' ++ rest)) = .ok (a, bs' ++ rest) := hfirst total _
  rw [List.append_assoc]
  show Step.bind step next total _ = _
  rw [Step.bind, hstep]
  exact hnext total rest

theorem reads_tag (expected : Nat) : Reads (tag expected) (Bytes.ofNat 8 expected) () := by
  intro total rest
  simp [tag]

theorem reads_number (width n : Nat) :
    Reads (number width) (Bytes.ofNat width n) (n % 256 ^ width) := by
  intro total rest
  simp [number, Bytes.toNat_ofNat]

theorem reads_number_of_lt {width n : Nat} (h : n < 256 ^ width) :
    Reads (number width) (Bytes.ofNat width n) n := by
  have hread := reads_number width n
  rwa [Nat.mod_eq_of_lt h] at hread

/-- A number in range is the only one in range that is congruent to it. -/
theorem wrap_of_fits (h : k.Fits n) :
    MachineInt.wrap k (n % (256 ^ (k.width / 8) : Nat)).toNat = ⟨n, h⟩ := by
  apply MachineInt.ext_val
  obtain ⟨hmin, hmax⟩ := h
  cases k
  all_goals
    simp [IntKind.min, IntKind.max, IntKind.size, IntKind.width, IntKind.isSigned] at hmin hmax
    simp [MachineInt.wrap, IntKind.wrap, IntKind.size, IntKind.width, IntKind.isSigned,
      Int.bmod_def]
    omega

theorem reads_machineInt (h : k.Fits n) :
    Reads (machineInt k) (Bytes.ofInt (k.width / 8) n) ⟨n, h⟩ := by
  have hpos : (0 : Int) < (256 ^ (k.width / 8) : Nat) :=
    Int.natCast_pos.mpr (Nat.pow_pos (by decide))
  have hlt : (n % (256 ^ (k.width / 8) : Nat)).toNat < 256 ^ (k.width / 8) :=
    (Int.toNat_lt (Int.emod_nonneg n (Int.ne_of_gt hpos))).mpr (Int.emod_lt_of_pos n hpos)
  have hread : Reads (machineInt k) (Bytes.ofInt (k.width / 8) n ++ [])
      (MachineInt.wrap k (n % (256 ^ (k.width / 8) : Nat)).toNat) :=
    (reads_number_of_lt hlt).bind (.pure _)
  rwa [List.append_nil, wrap_of_fits h] at hread

theorem reads_times {encode : α → Bytes} {as : List α}
    (h : ∀ a ∈ as, Reads step (encode a) a) :
    Reads (times step as.length) (as.flatMap encode) as := by
  induction as with
  | nil => exact .pure []
  | cons a as ih =>
      have hrest := ih fun a' ha => h a' (List.mem_cons_of_mem a ha)
      rw [List.flatMap_cons, List.length_cons, times]
      refine (h a List.mem_cons_self).bind ?_
      have hlist : Reads (times step as.length >>= fun as' => Pure.pure (a :: as'))
          (as.flatMap encode ++ []) (a :: as) := hrest.bind (.pure (a :: as))
      rwa [List.append_nil] at hlist

theorem reads_data {bytes : Bytes} (h : bytes.length < 256 ^ 8) :
    Reads data (encodeData bytes) bytes := by
  refine (reads_number_of_lt h).bind ?_
  intro total rest
  simp

end Step

/-- The parts of the record fit the numbers that a blob has for them. -/
structure TensorRecord.Writable (t : TensorRecord) : Prop where
  rank : IntKind.i32.Fits t.shape.length
  dims : ∀ n ∈ t.shape, IntKind.i64.Fits n
  size : t.data.length < 256 ^ 8

namespace Step

theorem reads_byte (b : UInt8) : Reads (number 1) [b] b.toNat := by
  have hread : Reads (number 1) (Bytes.ofNat 1 b.toNat) b.toNat := reads_number_of_lt b.toNat_lt
  have hbyte : UInt8.ofNat (b.toNat % 256) = b := by
    rw [Nat.mod_eq_of_lt b.toNat_lt, UInt8.ofNat_toNat]
  rwa [Bytes.ofNat, Bytes.ofNat, hbyte] at hread

/-- A tensor that can be written is read back. -/
theorem reads_tensor {t : TensorRecord} (h : t.Writable) : Reads tensor t.encode t := by
  obtain ⟨device, dtype, shape, content⟩ := t
  obtain ⟨dims, rfl⟩ : ∃ dims : List I64, dims.map (·.val) = shape :=
    ⟨shape.attach.map fun n => ⟨n.1, h.dims n.1 n.2⟩, by simp⟩
  have hzero : Reads (number 8) (Bytes.ofNat 8 0) 0 := reads_number_of_lt (by decide)
  have hkind : Reads (number 4) (Bytes.ofNat 4 device.kind.toNat) device.kind.toNat :=
    reads_number_of_lt device.kind.toNat_lt
  have hunit : Reads (machineInt .i32) (Bytes.ofInt 4 device.unit.val) device.unit :=
    reads_machineInt device.unit.fits
  have hrank : Reads (machineInt .i32) (Bytes.ofNat 4 (dims.map (·.val)).length)
      ⟨(dims.map (·.val)).length, h.rank⟩ := by
    have hle : ((dims.map (·.val)).length : Int) ≤ 2147483647 := h.rank.2
    rw [← Bytes.ofInt_natCast (Int.ofNat_lt.mp (Int.lt_of_le_of_lt hle (by decide)))]
    exact reads_machineInt h.rank
  have hlanes : Reads (number 2) (Bytes.ofNat 2 dtype.lanes.toNat) dtype.lanes.toNat :=
    reads_number_of_lt dtype.lanes.toNat_lt
  have hdims : Reads (times (machineInt .i64) ((dims.map (·.val)).length : Int).toNat)
      ((dims.map (·.val)).flatMap (Bytes.ofInt 8)) dims := by
    rw [List.flatMap_map, Int.toNat_natCast, List.length_map]
    exact reads_times fun n _ => reads_machineInt n.fits
  unfold tensor
  simp only [TensorRecord.encode, List.append_assoc]
  refine (reads_tag tensorTag).bind ?_
  refine hzero.bind ?_
  refine hkind.bind ?_
  refine hunit.bind ?_
  refine hrank.bind ?_
  rw [← List.singleton_append, List.append_assoc]
  refine (reads_byte dtype.code).bind ?_
  refine (reads_byte dtype.bits).bind ?_
  refine hlanes.bind ?_
  refine hdims.bind ?_
  rw [← List.append_nil (encodeData content)]
  refine (reads_data h.size).bind ?_
  simp only [UInt8.ofNat_toNat, UInt16.ofNat_toNat, UInt32.ofNat_toNat]
  exact .pure _

/-- A blob that holds one tensor is read as this tensor. -/
theorem readAll_encode {t : TensorRecord} (h : t.Writable) : readAll tensor t.encode = .ok t := by
  have hread := reads_tensor h t.encode.length []
  rw [List.append_nil] at hread
  rw [readAll, hread]

end Step

end Blob

end ObjectRuntime
