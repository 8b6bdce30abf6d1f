set_option autoImplicit false

/-!
# Machine integers

The integer types a value may be converted to: signed and unsigned, of 8 to 64 bits, with the two
pointer-sized types taken to be 64 bits wide.  A `MachineInt k` is an integer together with the
proof that it lies in the range of `k`, so a conversion either produces a number in range or
reports the one that is not.  `IntKind.parse` reads decimal texts and reports which of four causes
made a text unreadable.
-/

namespace ObjectRuntime

/-- The fixed-width integer types. -/
inductive IntKind where
  | i8 | i16 | i32 | i64 | isize
  | u8 | u16 | u32 | u64 | usize
  deriving DecidableEq, Repr, Inhabited

namespace IntKind

/-- Width in bits. -/
def width : IntKind → Nat
  | .i8 | .u8 => 8
  | .i16 | .u16 => 16
  | .i32 | .u32 => 32
  | .i64 | .u64 | .isize | .usize => 64

/-- Whether the type holds negative numbers. -/
def isSigned : IntKind → Bool
  | .i8 | .i16 | .i32 | .i64 | .isize => true
  | .u8 | .u16 | .u32 | .u64 | .usize => false

/-- How many numbers the type holds. -/
def size (k : IntKind) : Nat := Nat.pow 2 k.width

/-- Least number of the type. -/
def min (k : IntKind) : Int := if k.isSigned then -(k.size / 2) else 0

/-- Greatest number of the type. -/
def max (k : IntKind) : Int := k.min + k.size - 1

/-- The name under which messages refer to the type. -/
def name : IntKind → String
  | .i8 => "i8" | .i16 => "i16" | .i32 => "i32" | .i64 => "i64" | .isize => "isize"
  | .u8 => "u8" | .u16 => "u16" | .u32 => "u32" | .u64 => "u64" | .usize => "usize"

/-- The number lies in the range of the type. -/
def Fits (k : IntKind) (n : Int) : Prop := k.min ≤ n ∧ n ≤ k.max

/-- `Fits`, decided by the sign and the absolute value. -/
def holds (k : IntKind) : Int → Bool
  | .ofNat m => m ≤ k.max.toNat
  | .negSucc m => m < (-k.min).toNat

theorem min_nonpos (k : IntKind) : k.min ≤ 0 := by cases k <;> decide

theorem max_nonneg (k : IntKind) : 0 ≤ k.max := by cases k <;> decide

theorem holds_iff_fits (k : IntKind) (n : Int) : k.holds n = true ↔ k.Fits n := by
  have hmin := k.min_nonpos
  have hmax := k.max_nonneg
  cases n with
  | ofNat m =>
      simp only [holds, Fits, decide_eq_true_eq, Int.ofNat_eq_natCast]
      omega
  | negSucc m =>
      simp only [holds, Fits, decide_eq_true_eq]
      omega

-- The order of the integers subtracts its sides, which no kernel can do with a bound of 64 bits and
-- a number that is not known; `holds` compares them as they are.
instance (k : IntKind) (n : Int) : Decidable (k.Fits n) :=
  decidable_of_iff (k.holds n = true) (k.holds_iff_fits n)

/-- The number congruent to `n` modulo the size of `k` that lies in its range. -/
def wrap (k : IntKind) (n : Int) : Int :=
  if k.isSigned then Int.bmod n k.size else n % k.size

theorem fits_wrap (k : IntKind) (n : Int) : k.Fits (k.wrap n) := by
  cases k <;> simp [Fits, wrap, min, max, size, isSigned, width, Int.bmod] <;> omega

end IntKind

/-- A number in the range of `k`. -/
structure MachineInt (k : IntKind) where
  val : Int
  fits : k.Fits val
  deriving DecidableEq, Repr

/-- The payload of an integer value. -/
abbrev I64 := MachineInt .i64

namespace MachineInt

variable {k : IntKind}

theorem ext_val {a b : MachineInt k} (h : a.val = b.val) : a = b := by
  cases a; cases b; cases h; rfl

/-- The number itself, if it lies in the range. -/
def ofInt? (k : IntKind) (n : Int) : Option (MachineInt k) :=
  if h : k.Fits n then some ⟨n, h⟩ else none

/-- The number reduced into the range, as two's complement arithmetic does. -/
def wrap (k : IntKind) (n : Int) : MachineInt k := ⟨k.wrap n, k.fits_wrap n⟩

@[simp] theorem wrap_val (n : MachineInt k) : wrap k n.val = n := by
  obtain ⟨n, hmin, hmax⟩ := n
  apply ext_val
  cases k <;>
    simp [IntKind.min, IntKind.max, IntKind.size, IntKind.width, IntKind.isSigned] at hmin hmax <;>
    simp [wrap, IntKind.wrap, IntKind.size, IntKind.width, IntKind.isSigned, Int.bmod_def] <;>
    omega

instance : Inhabited (MachineInt k) := ⟨wrap k 0⟩

instance (n : Nat) : OfNat (MachineInt k) n := ⟨wrap k n⟩

instance : ToString (MachineInt k) := ⟨fun n => toString n.val⟩

/-- Wrapping addition. -/
def add (a b : MachineInt k) : MachineInt k := wrap k (a.val + b.val)

/-- Wrapping subtraction. -/
def sub (a b : MachineInt k) : MachineInt k := wrap k (a.val - b.val)

/-- Wrapping multiplication. -/
def mul (a b : MachineInt k) : MachineInt k := wrap k (a.val * b.val)

/-- The unsigned word with the same two's complement bits. -/
def toWord (a : MachineInt k) : UInt64 := UInt64.ofNat (a.val % UInt64.size).toNat

@[simp] theorem ofInt?_val (a : MachineInt k) : ofInt? k a.val = some a := by
  simp [ofInt?, a.fits]

theorem val_of_ofInt?_eq_some {n : Int} {a : MachineInt k} (h : ofInt? k n = some a) :
    a.val = n := by
  unfold ofInt? at h
  split at h
  · cases h; rfl
  · cases h

end MachineInt

/-! ## Reading decimal texts -/

/-- Why a text is not a number of the wanted type. -/
inductive ParseIntError where
  | empty
  | invalidDigit
  | positiveOverflow
  | negativeOverflow
  deriving DecidableEq, Repr

/-- The wording of the cause. -/
def ParseIntError.message : ParseIntError → String
  | .empty => "cannot parse integer from empty string"
  | .invalidDigit => "invalid digit found in string"
  | .positiveOverflow => "number too large to fit in target type"
  | .negativeOverflow => "number too small to fit in target type"

namespace IntKind

/-- The value of an ASCII digit. -/
def digit? (c : Char) : Option Nat :=
  if '0' ≤ c ∧ c ≤ '9' then some (c.toNat - '0'.toNat) else none

/-- The number with one more decimal digit, which moves it away from zero. -/
def appendDigit (negative : Bool) (acc : Int) (d : Nat) : Int :=
  if negative then acc * 10 - d else acc * 10 + d

/-- Appends digits to the accumulated number and stops at the first character that is no digit or
at the first number out of range. -/
def parseDigits (k : IntKind) (negative : Bool) (acc : Int) :
    List Char → Except ParseIntError Int
  | [] => .ok acc
  | c :: rest =>
    match digit? c with
    | none => .error .invalidDigit
    | some d =>
      if k.Fits (appendDigit negative acc d) then
        k.parseDigits negative (appendDigit negative acc d) rest
      else .error (if negative then .negativeOverflow else .positiveOverflow)

/-- Reads an optional sign (a minus only for signed types) and at least one ASCII digit. -/
def parseChars (k : IntKind) : List Char → Except ParseIntError Int
  | [] => .error .empty
  | ['+'] => .error .invalidDigit
  | ['-'] => .error .invalidDigit
  | '+' :: rest => k.parseDigits false 0 rest
  | c :: rest =>
    if c = '-' ∧ k.isSigned = true then k.parseDigits true 0 rest
    else k.parseDigits false 0 (c :: rest)

theorem fits_of_parseDigits {k : IntKind} {negative : Bool} {acc n : Int} {cs : List Char}
    (ha : k.Fits acc) (h : k.parseDigits negative acc cs = .ok n) : k.Fits n := by
  induction cs generalizing acc with
  | nil => simp only [parseDigits, Except.ok.injEq] at h; exact h ▸ ha
  | cons c rest ih =>
    simp only [parseDigits] at h
    split at h
    · cases h
    · split at h
      · rename_i hf; exact ih hf h
      · cases h

theorem fits_zero (k : IntKind) : k.Fits 0 := by cases k <;> decide

theorem fits_of_parseChars {k : IntKind} {cs : List Char} {n : Int}
    (h : k.parseChars cs = .ok n) : k.Fits n := by
  unfold parseChars at h
  split at h
  · cases h
  · cases h
  · cases h
  · exact fits_of_parseDigits k.fits_zero h
  · split at h
    · exact fits_of_parseDigits k.fits_zero h
    · exact fits_of_parseDigits k.fits_zero h

/-- Reads a decimal text as a number of the type. -/
def parse (k : IntKind) (s : String) : Except ParseIntError (MachineInt k) :=
  match h : k.parseChars s.toList with
  | .ok n => .ok ⟨n, fits_of_parseChars h⟩
  | .error e => .error e

end IntKind

end ObjectRuntime
