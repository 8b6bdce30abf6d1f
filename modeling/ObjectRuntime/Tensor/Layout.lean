import ObjectRuntime.Error
set_option autoImplicit false

/-!
# Layout of tensors

A shape lists the extents of the axes, and strides give the distance, in elements, between
neighbours on each axis.  A tensor without strides is compact and row-major: the last axis is the
fastest and there are no gaps.
-/

namespace ObjectRuntime.Layout

/-- The number of elements, multiplied up from the first axis in 64-bit arithmetic. -/
def elementCount (shape : List Int) : Except Fault Int :=
  shape.foldlM (checkedOp .i64 .mul) 1

/-- Compares the axes, last one first, with the stride that a compact layout has there.  An axis of
extent one may carry any stride. -/
def compactFrom (expected : Int) : List (Int × Int) → Except Fault Bool
  | [] => .ok true
  | (extent, stride) :: rest =>
    if extent = 1 then compactFrom expected rest
    else if stride ≠ expected then .ok false
    else do compactFrom (← checkedOp .i64 .mul expected extent) rest

/-- The layout is compact and row-major. -/
def isContiguous (shape : List Int) (strides : Option (List Int)) : Except Fault Bool :=
  match strides with
  | none => .ok true
  | some strides => compactFrom 1 (shape.zip strides).reverse

/-- Number of bytes spanned by the elements: the bits of all of them, rounded up.  A negative number
of elements is taken as a word. -/
def dataSize (shape : List Int) (dtype : DataType) : Except Fault Nat := do
  let count ← elementCount shape
  let bits ← checkedOp .usize .mul (IntKind.usize.wrap count) dtype.totalBits
  let padded ← checkedOp .usize .add bits 7
  return (padded / 8).toNat

/-- Strides of a compact row-major layout. -/
def rowMajorStrides : List Int → List Int
  | [] => []
  | _ :: rest => rest.foldl (· * ·) 1 :: rowMajorStrides rest

/-- The strides of an array that holds its elements in row-major order; without elements they are
all zero. -/
def arrayStrides (shape : List Int) : List Int :=
  if shape.contains 0 then shape.map fun _ => 0 else rowMajorStrides shape

/-- The places of the elements, in the logical order of the axes, the last one fastest. -/
def offsets : List (Int × Int) → List Int
  | [] => [0]
  | (extent, stride) :: rest =>
    (List.range extent.toNat).flatMap fun (i : Nat) =>
      (offsets rest).map fun o => (i : Int) * stride + o

/-- The values of an array in the logical order of its reversed axes. -/
def transposed {α : Type} (shape : List Int) (values : List α) : List α :=
  let places := offsets (shape.zip (rowMajorStrides shape)).reverse
  let values := values.toArray
  places.filterMap fun o => values[o.toNat]?

end ObjectRuntime.Layout
