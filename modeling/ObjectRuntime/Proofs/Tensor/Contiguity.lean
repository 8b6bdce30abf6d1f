import Mathlib.Algebra.Order.BigOperators.GroupWithZero.List
import Mathlib.Data.List.Induction
import Mathlib.Tactic.Ring
import Mathlib.Tactic.Linarith
import ObjectRuntime.Tensor.Layout
set_option autoImplicit false

/-!
# Exactness of the contiguity check

`isContiguous` looks at the strides only, last axis first, and lets an axis of extent one carry any
stride.  What it is to decide is a property of all elements: the place at which the strides put an
element is the position that it has when the elements are counted in row-major order.

Both sides lose their last axis in the same way (`RowMajor.concat_iff`): the stride of that axis has
to be the unit, unless the axis has a single index, and the other axes have to be row-major in a
unit that is larger by the extent.  The check follows by induction on the rank.
-/

namespace ObjectRuntime.Layout

variable {shape strides index : List Int} {unit extent stride i : Int}

/-- One number for each axis, from zero up to its extent. -/
structure InBounds (index shape : List Int) : Prop where
  rank : index.length = shape.length
  bounded : ∀ axis ∈ index.zip shape, 0 ≤ axis.1 ∧ axis.1 < axis.2

instance : Decidable (InBounds index shape) :=
  decidable_of_iff (index.length = shape.length ∧ ∀ axis ∈ index.zip shape,
      0 ≤ axis.1 ∧ axis.1 < axis.2)
    ⟨fun h => ⟨h.1, h.2⟩, fun h => ⟨h.1, h.2⟩⟩

/-- The place, in elements, at which the strides put the element with an index. -/
def stridedOffset (strides index : List Int) : Int :=
  (List.zipWith (· * ·) index strides).sum

/-- The number of elements that come before the one with an index if the last axis is the
fastest. -/
def rowMajorPosition (shape index : List Int) : Int :=
  (index.zip shape).foldl (fun position axis => position * axis.2 + axis.1) 0

/-- Every element lies at its row-major position, counted in units of the given size. -/
def RowMajor (unit : Int) (shape strides : List Int) : Prop :=
  ∀ index, InBounds index shape → stridedOffset strides index = unit * rowMajorPosition shape index

/-! ### The last axis -/

theorem inBounds_concat :
    InBounds (index ++ [i]) (shape ++ [extent]) ↔ InBounds index shape ∧ 0 ≤ i ∧ i < extent := by
  constructor
  · rintro ⟨hrank, hbounded⟩
    have hlength : index.length = shape.length := by simpa using hrank
    rw [List.zip_append hlength] at hbounded
    exact ⟨⟨hlength, fun axis h => hbounded axis (List.mem_append_left _ h)⟩,
      hbounded (i, extent) (by simp)⟩
  · rintro ⟨⟨hlength, hbounded⟩, hi⟩
    refine ⟨by simp [hlength], fun axis h => ?_⟩
    rw [List.zip_append hlength, List.mem_append] at h
    rcases h with h | h
    · exact hbounded axis h
    · obtain rfl : axis = (i, extent) := by simpa using h
      exact hi

theorem InBounds.exists_concat (h : InBounds index (shape ++ [extent])) :
    ∃ front i, index = front ++ [i] := by
  have hrank := h.rank
  rcases List.eq_nil_or_concat index with rfl | hconcat
  · simp at hrank
  · simpa using hconcat

theorem stridedOffset_concat (hrank : index.length = strides.length) :
    stridedOffset (strides ++ [stride]) (index ++ [i]) =
      stridedOffset strides index + i * stride := by
  simp [stridedOffset, List.zipWith_append hrank]

theorem rowMajorPosition_concat (hrank : index.length = shape.length) :
    rowMajorPosition (shape ++ [extent]) (index ++ [i]) =
      rowMajorPosition shape index * extent + i := by
  simp [rowMajorPosition, List.zip_append hrank]

/-! ### The first element -/

theorem inBounds_origin (hshape : ∀ n ∈ shape, 1 ≤ n) :
    InBounds (List.replicate shape.length 0) shape := by
  refine ⟨by simp, fun axis h => ?_⟩
  obtain ⟨h0, hn⟩ := List.of_mem_zip h
  have := hshape _ hn
  rw [List.eq_of_mem_replicate h0]
  omega

theorem stridedOffset_origin {rank : Nat} : stridedOffset strides (List.replicate rank 0) = 0 := by
  induction strides generalizing rank with
  | nil => simp [stridedOffset]
  | cons s strides ih =>
      cases rank with
      | zero => simp [stridedOffset]
      | succ rank => simpa [stridedOffset, List.replicate_succ] using ih

theorem rowMajorPosition_origin {rank : Nat} :
    rowMajorPosition shape (List.replicate rank 0) = 0 := by
  induction shape generalizing rank with
  | nil => simp [rowMajorPosition]
  | cons n shape ih =>
      cases rank with
      | zero => simp [rowMajorPosition]
      | succ rank => simpa [rowMajorPosition, List.replicate_succ] using ih

/-! ### The induction on the rank -/

/-- The second index of the last axis fixes its stride, and the first one leaves the other axes. -/
theorem RowMajor.concat_iff (hrank : strides.length = shape.length)
    (hshape : ∀ n ∈ shape, 1 ≤ n) (hextent : 1 ≤ extent) :
    RowMajor unit (shape ++ [extent]) (strides ++ [stride]) ↔
      (extent = 1 ∨ stride = unit) ∧ RowMajor (unit * extent) shape strides := by
  constructor
  · intro h
    refine ⟨or_iff_not_imp_left.mpr fun hne => ?_, fun index hin => ?_⟩
    · have hsecond := h _ (inBounds_concat.mpr ⟨inBounds_origin hshape, zero_le_one, by omega⟩)
      rw [stridedOffset_concat (by simp [hrank]), rowMajorPosition_concat (by simp),
        stridedOffset_origin, rowMajorPosition_origin] at hsecond
      simpa using hsecond
    · have hfirst := h _ (inBounds_concat.mpr ⟨hin, le_refl 0, by omega⟩)
      rw [stridedOffset_concat (hin.rank.trans hrank.symm), rowMajorPosition_concat hin.rank]
        at hfirst
      linarith
  · rintro ⟨hstride, hrest⟩ index hin
    obtain ⟨front, i, rfl⟩ := hin.exists_concat
    obtain ⟨hfront, h0, hi⟩ := inBounds_concat.mp hin
    have hlast : i * stride = unit * i := by
      rcases hstride with rfl | rfl
      · obtain rfl : i = 0 := by omega
        simp
      · exact mul_comm _ _
    rw [stridedOffset_concat (hfront.rank.trans hrank.symm), rowMajorPosition_concat hfront.rank,
      hrest front hfront, hlast]
    ring

/-- An axis of extent one is skipped, and another one is compared with the unit.  Both are the same
step, since a unit is not changed by an extent of one. -/
theorem compactFrom_cons {axes : List (Int × Int)}
    (hfits : IntKind.i64.Fits (unit * extent)) :
    compactFrom unit ((extent, stride) :: axes) =
      if extent = 1 ∨ stride = unit then compactFrom (unit * extent) axes else .ok false := by
  have hstep : checkedOp .i64 .mul unit extent = .ok (unit * extent) := if_pos hfits
  by_cases hone : extent = 1
  · simp [compactFrom, hone]
  · by_cases hstride : stride = unit
    · simp only [compactFrom, hone, hstride, hstep, false_or, ne_eq, not_true_eq_false, if_false,
        if_true]
      rfl
    · simp [compactFrom, hone, hstride]

/-- The products that are still to come are smaller than that of all extents. -/
theorem fits_of_prod (hunit : 1 ≤ unit) (hshape : ∀ n ∈ shape, 1 ≤ n)
    (hfits : IntKind.i64.Fits (unit * shape.prod)) : IntKind.i64.Fits unit := by
  have hprod : 0 < shape.prod := List.prod_pos fun n hn => by linarith [hshape n hn]
  have hle : unit ≤ unit * shape.prod := le_mul_of_one_le_right (by omega) hprod
  exact ⟨le_trans (by decide) (le_trans zero_le_one hunit), hle.trans hfits.2⟩

theorem compactFrom_iff_rowMajor (hunit : 1 ≤ unit) (hrank : strides.length = shape.length)
    (hshape : ∀ n ∈ shape, 1 ≤ n) (hfits : IntKind.i64.Fits (unit * shape.prod)) :
    ∃ compact, compactFrom unit (shape.zip strides).reverse = .ok compact ∧
      (compact = true ↔ RowMajor unit shape strides) := by
  induction shape using List.reverseRecOn generalizing unit strides with
  | nil =>
      obtain rfl : strides = [] := by simpa using hrank
      refine ⟨true, rfl, iff_of_true rfl fun index hin => ?_⟩
      obtain rfl : index = [] := by simpa using hin.rank
      simp [stridedOffset, rowMajorPosition]
  | append_singleton shape extent ih =>
      obtain ⟨strides, stride, rfl⟩ : ∃ front s, strides = front ++ [s] := by
        rcases List.eq_nil_or_concat strides with rfl | hconcat
        · simp at hrank
        · simpa using hconcat
      have hrank : strides.length = shape.length := by simpa using hrank
      have hfront : ∀ n ∈ shape, 1 ≤ n := fun n h => hshape n (List.mem_append_left _ h)
      have hextent : 1 ≤ extent := hshape extent (by simp)
      have hunit' : 1 ≤ unit * extent := one_le_mul_of_one_le_of_one_le hunit hextent
      have hrest : IntKind.i64.Fits (unit * extent * shape.prod) := by
        rwa [List.prod_append, List.prod_singleton, mul_comm shape.prod, ← mul_assoc] at hfits
      have hstep := fits_of_prod hunit' hfront hrest
      rw [RowMajor.concat_iff hrank hfront hextent, List.zip_append hrank.symm,
        List.reverse_append, List.zip_cons_cons, List.zip_nil_left, List.reverse_singleton,
        List.singleton_append, compactFrom_cons hstep]
      by_cases hlast : extent = 1 ∨ stride = unit
      · simpa [hlast] using ih hunit' hrank hfront hrest
      · exact ⟨false, if_neg hlast, by simp [hlast]⟩

/-- The check succeeds exactly if every element lies at its row-major position, whatever the strides
of the axes that have a single index. -/
theorem isContiguous_iff_rowMajor (hrank : strides.length = shape.length)
    (hshape : ∀ n ∈ shape, 1 ≤ n) (hcount : IntKind.i64.Fits shape.prod) :
    ∃ contiguous, isContiguous shape (some strides) = .ok contiguous ∧
      (contiguous = true ↔
        ∀ index, InBounds index shape →
          stridedOffset strides index = rowMajorPosition shape index) := by
  have hfits : IntKind.i64.Fits (1 * shape.prod) := by rwa [one_mul]
  simpa only [isContiguous, RowMajor, one_mul] using
    compactFrom_iff_rowMajor le_rfl hrank hshape hfits

/-- A matrix of two rows and three columns with an axis of extent one between them, which carries a
stride that leads nowhere. -/
theorem isContiguous_iff_rowMajor_matrix :
    ([3, 77, 1] : List Int).length = ([2, 1, 3] : List Int).length ∧
      (∀ n ∈ ([2, 1, 3] : List Int), 1 ≤ n) ∧ IntKind.i64.Fits ([2, 1, 3] : List Int).prod ∧
      isContiguous [2, 1, 3] (some [3, 77, 1]) = .ok true ∧
      ∀ index, InBounds index [2, 1, 3] →
        stridedOffset [3, 77, 1] index = rowMajorPosition [2, 1, 3] index := by
  have hrank : ([3, 77, 1] : List Int).length = ([2, 1, 3] : List Int).length := rfl
  have hshape : ∀ n ∈ ([2, 1, 3] : List Int), 1 ≤ n := by decide
  have hcount : IntKind.i64.Fits ([2, 1, 3] : List Int).prod := by decide
  obtain ⟨contiguous, hcheck, hiff⟩ := isContiguous_iff_rowMajor hrank hshape hcount
  have htrue : isContiguous [2, 1, 3] (some [3, 77, 1]) = .ok true := rfl
  obtain rfl : true = contiguous := Except.ok.inj (htrue.symm.trans hcheck)
  exact ⟨hrank, hshape, hcount, htrue, hiff.mp rfl⟩

/-! ### The strides of a compact array -/

theorem rowMajorPosition_cons (hrank : index.length = shape.length) :
    rowMajorPosition (extent :: shape) (i :: index) =
      i * shape.prod + rowMajorPosition shape index := by
  -- Only the part that is already counted is multiplied on.
  have hcounted : ∀ counted, (index.zip shape).foldl (fun p axis => p * axis.2 + axis.1) counted =
      counted * shape.prod + rowMajorPosition shape index := by
    induction index generalizing shape with
    | nil =>
        obtain rfl : shape = [] := by simpa [eq_comm] using hrank
        simp [rowMajorPosition]
    | cons i index ih =>
        obtain ⟨n, shape, rfl⟩ := List.exists_cons_of_length_eq_add_one hrank.symm
        intro counted
        have hrank : index.length = shape.length := by simpa using hrank
        have hzero := ih hrank (0 * n + i)
        simp only [rowMajorPosition, List.zip_cons_cons, List.foldl_cons, List.prod_cons, hzero,
          ih hrank (counted * n + i)]
        ring
  simpa [rowMajorPosition] using hcounted i

/-- The strides that are given to a new array put its elements at their row-major positions. -/
theorem stridedOffset_rowMajorStrides (hrank : index.length = shape.length) :
    stridedOffset (rowMajorStrides shape) index = rowMajorPosition shape index := by
  induction shape generalizing index with
  | nil => simp [stridedOffset, rowMajorStrides, rowMajorPosition]
  | cons n shape ih =>
      obtain ⟨i, index, rfl⟩ := List.exists_cons_of_length_eq_add_one hrank
      have hrank : index.length = shape.length := by simpa using hrank
      rw [rowMajorPosition_cons hrank, ← ih hrank, rowMajorStrides, ← List.prod_eq_foldl]
      simp [stridedOffset]

theorem length_rowMajorStrides : (rowMajorStrides shape).length = shape.length := by
  induction shape with
  | nil => rfl
  | cons n shape ih => simp [rowMajorStrides, ih]

/-- A new array with elements is contiguous. -/
theorem isContiguous_rowMajorStrides (hshape : ∀ n ∈ shape, 1 ≤ n)
    (hcount : IntKind.i64.Fits shape.prod) :
    isContiguous shape (some (rowMajorStrides shape)) = .ok true := by
  have hfits : IntKind.i64.Fits (1 * shape.prod) := by rwa [one_mul]
  obtain ⟨contiguous, hcheck, hiff⟩ :=
    compactFrom_iff_rowMajor le_rfl length_rowMajorStrides hshape hfits
  have hrowMajor : RowMajor 1 shape (rowMajorStrides shape) := fun index hin => by
    rw [stridedOffset_rowMajorStrides hin.rank, one_mul]
  rw [isContiguous, hcheck, hiff.mpr hrowMajor]

end ObjectRuntime.Layout
