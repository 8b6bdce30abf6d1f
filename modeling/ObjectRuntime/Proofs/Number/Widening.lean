import ObjectRuntime.Proofs.Number.Rounding
set_option autoImplicit false

/-!
# Numbers of 32 bits in 64 bits

Every number of the 32-bit format is one of the 64-bit format, so nothing is lost when it is widened,
and narrowing it again gives the same number.  What is not a number stays so, whatever becomes of its
payload.
-/

namespace ObjectRuntime

namespace BinaryFormat

variable {f : BinaryFormat} {m n : Nat} {e g : Int}

theorem infinityBits_lt_signBit (f : BinaryFormat) : f.infinityBits < f.signBit := by
  have hpos := f.hiddenBit_pos
  have hexponents : 0 < Nat.pow 2 f.exponentBits := Nat.two_pow_pos _
  have hsign : f.signBit = Nat.pow 2 f.exponentBits * f.hiddenBit := by
    simp only [signBit, hiddenBit, Nat.pow_eq]
    rw [← pow_add, Nat.add_comm]
  rw [infinityBits, hsign]
  exact Nat.mul_lt_mul_of_pos_right (by omega) hpos

/-- The magnitude bits of a number with a significand that fits. -/
def magnitudeBits (f : BinaryFormat) (m : Nat) (e : Int) : Nat :=
  (e - f.leastExponent).toNat * f.hiddenBit + m

/-- The bits of a finite number are read as the number. -/
theorem unpack_of_canonical (h : f.Canonical m e) (hfinite : f.magnitudeBits m e < f.infinityBits)
    (s : Bool) : f.unpack (f.withSign s (f.magnitudeBits m e)) = .finite s m e := by
  have hbelow := hfinite.trans f.infinityBits_lt_signBit
  have hsign : (f.withSign s (f.magnitudeBits m e) / f.signBit % 2 == 1) = s := by
    cases s with
    | false => simp [withSign, Nat.div_eq_of_lt hbelow]
    | true =>
        have hone : f.withSign true (f.magnitudeBits m e) / f.signBit = 1 := by
          have hsignBit : 0 < f.signBit := Nat.two_pow_pos _
          rw [withSign, if_pos rfl, Nat.add_div_left _ hsignBit, Nat.div_eq_of_lt hbelow]
        rw [hone]
        rfl
  have hmagnitude : f.withSign s (f.magnitudeBits m e) % f.signBit = f.magnitudeBits m e := by
    cases s with
    | false => exact Nat.mod_eq_of_lt hbelow
    | true =>
        rw [withSign, if_pos rfl, Nat.add_mod_left, Nat.mod_eq_of_lt hbelow]
  have hpos := f.hiddenBit_pos
  unfold unpack
  simp only [hsign, hmagnitude]
  rw [if_neg (by omega), if_neg (by omega)]
  by_cases hsmall : m < f.hiddenBit
  · -- one of the smallest numbers
    have hleast : e = f.leastExponent := h.fills.resolve_right (by omega)
    have hbits : f.magnitudeBits m e = m := by simp [magnitudeBits, hleast]
    rw [hbits, Nat.div_eq_of_lt hsmall, if_pos rfl, Nat.mod_eq_of_lt hsmall, hleast]
  · obtain ⟨k, hk⟩ := Int.eq_ofNat_of_zero_le (sub_nonneg.mpr h.least)
    obtain ⟨r, rfl⟩ := Nat.exists_eq_add_of_le (not_lt.mp hsmall)
    have hr : r < f.hiddenBit := by
      have := h.fits
      omega
    have hbits : f.magnitudeBits (f.hiddenBit + r) e = r + (k + 1) * f.hiddenBit := by
      rw [magnitudeBits, hk, Int.toNat_natCast]
      ring
    rw [hbits, Nat.add_mul_div_right _ _ hpos, Nat.div_eq_of_lt hr, Nat.add_mul_mod_self_right,
      Nat.mod_eq_of_lt hr, if_neg (by omega), Nat.add_comm r]
    have hexponent : f.leastExponent + ((0 + (k + 1) - 1 : Nat) : Int) = e := by omega
    rw [hexponent]

/-- A number lies in its own rounding interval. -/
theorem contains_self (hm : 0 < m) (e : Int) :
    (RoundingInterval.ofParts f m e).Contains ((m : ℚ) * 2 ^ e) := by
  have hunit : (2 : ℚ) ^ e ≠ 0 := by positivity
  have hvalue : (m : ℚ) * 2 ^ e / 2 ^ e = m := mul_div_cancel_right₀ _ hunit
  obtain ⟨hlow, hhigh⟩ := RoundingInterval.lowerHalf_bounds f m e
  rw [RoundingInterval.contains_ofParts hm, hvalue]
  refine ⟨⟨by linarith, by linarith⟩, fun _ => ⟨by linarith, by linarith⟩⟩

/-- Packing a number that the format has gives its bits, however the number is given. -/
theorem pack_of_value (h : f.Canonical m e) (hfinite : f.magnitudeBits m e < f.infinityBits)
    (hm : 0 < m) (hvalue : (n : ℚ) * 2 ^ g = m * 2 ^ e) (s : Bool) :
    f.pack (.finite s n g) = f.withSign s (f.magnitudeBits m e) := by
  have hratio := scaleRatio_value n 1 g
  rw [Nat.cast_one, div_one, hvalue] at hratio
  have hcontains := contains_self (f := f) hm e
  rw [← hratio] at hcontains
  have hrounded := ofRatio_of_contains h hm (scaleRatio_pos n Nat.one_pos g) hcontains
  simp only [pack, hrounded]
  rw [← magnitudeBits, min_eq_left hfinite.le]

/-- So does packing zero. -/
theorem pack_zero (s : Bool) (g : Int) : f.pack (.finite s 0 g) = f.withSign s 0 := by
  have hzero : (scaleRatio 0 1 g).1 = 0 := by
    unfold scaleRatio
    split <;> simp
  simp only [pack, hzero, ofRatio, if_true]

end BinaryFormat

open BinaryFormat (Canonical double single)

/-! ## Numbers with a value -/

theorem Single.bits_lt (x : Single) : x.bits.toNat < 2 * single.signBit := x.bits.toNat_lt

/-- A number is its sign and its magnitude. -/
theorem Single.eq_of_bits {x : Single} {s : Bool} {magnitude : Nat}
    (hsign : s = (x.bits.toNat / single.signBit % 2 == 1))
    (hmagnitude : x.bits.toNat % single.signBit = magnitude) :
    x = ⟨UInt32.ofNat (single.withSign s magnitude)⟩ := by
  rw [hsign, ← hmagnitude, BinaryFormat.withSign_of_bits x.bits_lt, UInt32.ofNat_toNat]

/-- A number of the 32-bit format with a value fits the 64-bit format. -/
theorem BinaryFormat.widened {m : Nat} {e : Int} (h : single.Canonical m e) (hm : 0 < m)
    (hfinite : single.magnitudeBits m e < single.infinityBits) :
    ∃ (m' : Nat) (e' : Int), double.Canonical m' e' ∧ 0 < m' ∧
      double.magnitudeBits m' e' < double.infinityBits ∧ (m : ℚ) * 2 ^ e = m' * 2 ^ e' := by
  obtain ⟨hlow, hhigh⟩ : 2 ^ m.log2 ≤ m ∧ m < 2 ^ (m.log2 + 1) :=
    ⟨Nat.log2_self_le hm.ne', Nat.lt_log2_self⟩
  have hleast : (-149 : Int) ≤ e := h.least
  have hfits : m < 2 ^ 24 := h.fits
  have hlog : m.log2 < 24 := (Nat.log2_lt hm.ne').mpr hfits
  have htop : e < 105 := by
    have hfills : e = -149 ∨ 8388608 ≤ m := h.fills
    have hbits : (e - (-149)).toNat * 8388608 + m < 255 * 8388608 := hfinite
    omega
  obtain ⟨k, hk⟩ : ∃ k, m.log2 + k = 52 := ⟨52 - m.log2, by omega⟩
  have hpow : 2 ^ m.log2 * 2 ^ k = 4503599627370496 := by
    rw [← pow_add, hk]
    rfl
  have hbelow : m * 2 ^ k < 2 * 4503599627370496 := by
    calc m * 2 ^ k < 2 ^ (m.log2 + 1) * 2 ^ k := Nat.mul_lt_mul_of_pos_right hhigh (Nat.two_pow_pos k)
      _ = 2 * 4503599627370496 := by rw [pow_succ, mul_right_comm, hpow, mul_comm]
  have habove : 4503599627370496 ≤ m * 2 ^ k := hpow ▸ Nat.mul_le_mul_right _ hlow
  refine ⟨m * 2 ^ k, e - k, ⟨?_, hbelow, .inr habove⟩, by omega, ?_, ?_⟩
  · show (-1074 : Int) ≤ e - k
    omega
  · show (e - k - (-1074)).toNat * 4503599627370496 + m * 2 ^ k < 2047 * 4503599627370496
    omega
  · push_cast
    rw [mul_assoc, ← zpow_natCast, ← zpow_add₀ two_ne_zero]
    congr 2
    omega

/-- Packing a number that the 64-bit format has gives the number. -/
theorem Double.unpack_pack {s : Bool} {m n : Nat} {e g : Int} (h : double.Canonical m e)
    (hfinite : double.magnitudeBits m e < double.infinityBits) (hm : 0 < m)
    (hvalue : (n : ℚ) * 2 ^ g = m * 2 ^ e) :
    (Double.pack (.finite s n g)).unpack = .finite s m e := by
  have hbits := BinaryFormat.pack_of_value h hfinite hm hvalue s
  have hsigned : double.withSign s (double.magnitudeBits m e) < 2 ^ 64 := by
    have hbelow : double.magnitudeBits m e < 2 ^ 63 :=
      hfinite.trans double.infinityBits_lt_signBit
    have hsign : double.withSign s (double.magnitudeBits m e) ≤
        2 ^ 63 + double.magnitudeBits m e := by
      unfold BinaryFormat.withSign
      split
      · exact le_refl _
      · exact Nat.le_add_left _ _
    omega
  rw [Double.pack, hbits, Double.unpack, UInt64.toNat_ofNat_of_lt' hsigned]
  exact BinaryFormat.unpack_of_canonical h hfinite s

theorem Double.toSingle_of_finite {y : Double} {s : Bool} {n : Nat} {g : Int}
    (hy : y.unpack = .finite s n g) :
    y.toSingle = ⟨UInt32.ofNat (single.pack (.finite s n g))⟩ := by
  have hnan : y.isNaN = false := by
    rw [Double.isNaN, hy]
    rfl
  rw [Double.toSingle, hnan, hy]
  rfl

namespace Single

variable {x : Single} {s : Bool} {m : Nat} {e : Int}

/-- A number is widened to one with the same value, and narrowed to itself. -/
theorem toSingle_pack_of_finite (hx : x.unpack = .finite s m e) :
    (Double.pack (.finite s m e)).toSingle = x := by
  obtain ⟨hcanonical, hbits, hfinite, hsign⟩ := BinaryFormat.bits_of_unpack hx
  have hself := eq_of_bits hsign hbits
  rcases Nat.eq_zero_or_pos m with rfl | hm
  · have hleast : e = single.leastExponent := hcanonical.fills.resolve_right (by decide)
    have hzero : (Double.pack (.finite s 0 e)).unpack = .finite s 0 double.leastExponent := by
      rw [Double.pack, BinaryFormat.pack_zero]
      cases s <;> decide
    rw [Double.toSingle_of_finite hzero, BinaryFormat.pack_zero, hself, hleast]
    rfl
  · rw [hbits] at hfinite
    obtain ⟨m', e', hcanonical', hm', hfinite', hvalue⟩ :=
      BinaryFormat.widened hcanonical hm hfinite
    have hwide : (Double.pack (.finite s m e)).unpack = .finite s m' e' :=
      Double.unpack_pack hcanonical' hfinite' hm' hvalue
    rw [Double.toSingle_of_finite hwide,
      BinaryFormat.pack_of_value hcanonical hfinite hm hvalue.symm]
    exact hself.symm

theorem toSingle_pack_of_infinite (hx : x.unpack = .infinite s) :
    (Double.pack (.infinite s)).toSingle = x := by
  have hwide : (Double.pack (.infinite s)).toSingle =
      ⟨UInt32.ofNat (single.withSign s single.infinityBits)⟩ := by
    cases s <;> decide
  rw [hwide]
  unfold unpack BinaryFormat.unpack at hx
  dsimp only at hx
  split_ifs at hx with hnan hinfinite hzero
  cases hx
  exact (eq_of_bits rfl hinfinite).symm

/-- Widening a number and narrowing the result gives the number. -/
theorem toSingle_toDouble (h : x.isNaN = false) : x.toDouble.toSingle = x := by
  rw [toDouble, h, if_neg Bool.false_ne_true]
  cases hx : x.unpack with
  | nan => simp [isNaN, hx] at h
  | infinite s => exact toSingle_pack_of_infinite hx
  | finite s m e => exact toSingle_pack_of_finite hx

end Single

/-! ## What is not a number -/

theorem BinaryFormat.unpack_eq_nan {f : BinaryFormat} {bits : Nat} :
    f.unpack bits = .nan ↔ f.infinityBits < bits % f.signBit := by
  unfold unpack
  dsimp only
  constructor
  · intro h
    split_ifs at h with hnan
    exact hnan
  · intro h
    rw [if_pos h]

/-- A bit that is set is there in the lower bits. -/
theorem le_or_mod {k i : Nat} (n : Nat) (hi : i < k) : 2 ^ i ≤ (n ||| 2 ^ i) % 2 ^ k := by
  rw [Nat.or_mod_two_pow, Nat.mod_eq_of_lt (Nat.pow_lt_pow_right Nat.one_lt_two hi)]
  exact Nat.right_le_or

/-- A bit that is set is not changed by setting it. -/
theorem or_two_pow_eq_self {n i : Nat} (h : n / 2 ^ i % 2 = 1) : n ||| 2 ^ i = n := by
  have hset : n.testBit i = true := by
    rw [Nat.testBit_eq_decide_div_mod_eq]
    exact decide_eq_true h
  refine Nat.eq_of_testBit_eq fun j => ?_
  rw [Nat.testBit_or, Nat.testBit_two_pow]
  by_cases hj : i = j
  · simp [← hj, hset]
  · simp [hj]

/-- Widening something that is not a number gives something that is not a number. -/
theorem Single.isNaN_toDouble {x : Single} (h : x.isNaN = true) : x.toDouble.isNaN = true := by
  have hhalf : single.hiddenBit / 2 = 2 ^ 22 := rfl
  have hhidden : single.hiddenBit = 2 ^ 23 := rfl
  have hinfinity : double.infinityBits = 2047 * 2 ^ 52 := rfl
  have hsignBit : double.signBit = 2 ^ 63 := rfl
  have hbits : x.bits.toNat ||| 2 ^ 22 < 2 ^ 32 := Nat.or_lt_two_pow x.bits.toNat_lt (by decide)
  have hquiet : 2 ^ 22 ≤ (x.bits.toNat ||| 2 ^ 22) % 2 ^ 23 := le_or_mod _ (by decide)
  rw [Double.isNaN, beq_iff_eq, Double.unpack, BinaryFormat.unpack_eq_nan, toDouble, if_pos h,
    hhalf]
  simp only [hhidden, hinfinity, hsignBit, Nat.shiftRight_eq_div_pow, Nat.shiftLeft_eq]
  rw [UInt64.toNat_ofNat_of_lt' (show _ < 2 ^ 64 by omega)]
  omega

/-- So does narrowing. -/
theorem Double.isNaN_toSingle {x : Double} (h : x.isNaN = true) : x.toSingle.isNaN = true := by
  have hhalf : double.hiddenBit / 2 = 2 ^ 51 := rfl
  have hhidden : single.hiddenBit = 2 ^ 23 := rfl
  have hinfinity : single.infinityBits = 255 * 2 ^ 23 := rfl
  have hsignBit : single.signBit = 2 ^ 31 := rfl
  have hbits : x.bits.toNat ||| 2 ^ 51 < 2 ^ 64 := Nat.or_lt_two_pow x.bits.toNat_lt (by decide)
  have hquiet : 2 ^ 51 ≤ (x.bits.toNat ||| 2 ^ 51) % 2 ^ 52 := le_or_mod _ (by decide)
  rw [Single.isNaN, beq_iff_eq, Single.unpack, BinaryFormat.unpack_eq_nan, toSingle, if_pos h,
    hhalf]
  simp only [hhidden, hinfinity, hsignBit, Nat.shiftRight_eq_div_pow, Nat.shiftLeft_eq]
  rw [UInt32.toNat_ofNat_of_lt' (show _ < 2 ^ 32 by omega)]
  omega

namespace Single

/-- The same number, or neither is a number. -/
def Same (x y : Single) : Prop := x = y ∨ (x.isNaN = true ∧ y.isNaN = true)

/-- Nothing of a number is lost by passing it as a number of 64 bits. -/
theorem same_toDouble_toSingle (x : Single) : x.Same x.toDouble.toSingle := by
  cases h : x.isNaN with
  | false => exact .inl (toSingle_toDouble h).symm
  | true => exact .inr ⟨h, Double.isNaN_toSingle (isNaN_toDouble h)⟩

/-- What has been widened once is widened to the same again, whatever it is: it has become quiet. -/
theorem toDouble_toSingle_toDouble (x : Single) : x.toDouble.toSingle.toDouble = x.toDouble := by
  cases h : x.isNaN with
  | false => rw [toSingle_toDouble h]
  | true =>
      have hwide := isNaN_toDouble h
      have hnarrow := Double.isNaN_toSingle hwide
      have hhalf : single.hiddenBit / 2 = 2 ^ 22 := rfl
      have hhalf' : double.hiddenBit / 2 = 2 ^ 51 := rfl
      have hhidden : single.hiddenBit = 2 ^ 23 := rfl
      have hinfinity : single.infinityBits = 255 * 2 ^ 23 := rfl
      have hinfinity' : double.infinityBits = 2047 * 2 ^ 52 := rfl
      -- `n` is what is not a number, made quiet, and `m` the same in 64 bits
      obtain ⟨n, hn⟩ : ∃ n, n = x.bits.toNat ||| 2 ^ 22 := ⟨_, rfl⟩
      have hbits : n < 2 ^ 32 := hn ▸ Nat.or_lt_two_pow x.bits.toNat_lt (by decide)
      have hquiet : 2 ^ 22 ≤ n % 2 ^ 23 := hn ▸ le_or_mod _ (by decide)
      obtain ⟨m, hm⟩ : ∃ m, m = n / 2 ^ 31 * 2 ^ 63 + 2047 * 2 ^ 52 + n % 2 ^ 23 * 2 ^ 29 := ⟨_, rfl⟩
      have hx : x.toDouble = ⟨UInt64.ofNat m⟩ := by
        rw [toDouble, if_pos h, hhalf, ← hn, hm]
        simp only [hhidden, hinfinity', Nat.shiftRight_eq_div_pow, Nat.shiftLeft_eq]
      have hword : (UInt64.ofNat m).toNat = m := UInt64.toNat_ofNat_of_lt' (show m < 2 ^ 64 by omega)
      have hset : m ||| 2 ^ 51 = m := or_two_pow_eq_self (by omega)
      obtain ⟨k, hk⟩ : ∃ k, k = n / 2 ^ 31 * 2 ^ 31 + 255 * 2 ^ 23 + n % 2 ^ 23 := ⟨_, rfl⟩
      have hsign : m / 2 ^ 63 = n / 2 ^ 31 := by omega
      have hpayload : m / 2 ^ 29 % 2 ^ 23 = n % 2 ^ 23 := by omega
      have hy : x.toDouble.toSingle = ⟨UInt32.ofNat k⟩ := by
        rw [Double.toSingle, if_pos hwide, hhalf', hx, hk]
        simp only [hword, hset, hhidden, hinfinity, Nat.shiftRight_eq_div_pow, Nat.shiftLeft_eq,
          hsign, hpayload]
      have hword' : (UInt32.ofNat k).toNat = k := UInt32.toNat_ofNat_of_lt' (show k < 2 ^ 32 by omega)
      have hset' : k ||| 2 ^ 22 = k := or_two_pow_eq_self (by omega)
      have hsign' : k / 2 ^ 31 = n / 2 ^ 31 := by omega
      have hpayload' : k % 2 ^ 23 = n % 2 ^ 23 := by omega
      rw [toDouble, if_pos hnarrow, hy, hhalf, hx, hm]
      simp only [hword', hset', hhidden, hinfinity', Nat.shiftRight_eq_div_pow, Nat.shiftLeft_eq,
        hsign', hpayload']

end Single

end ObjectRuntime
