import ObjectRuntime.Number.Decimal
import Mathlib.Algebra.Order.Field.Power
import Mathlib.Algebra.Order.Floor.Semifield
import Mathlib.Data.Rat.Cast.Order
import Mathlib.Tactic.FieldSimp
import Mathlib.Tactic.IntervalCases
import Mathlib.Tactic.Linarith
import Mathlib.Tactic.LinearCombination
import Mathlib.Tactic.NormNum
import Mathlib.Tactic.Positivity
import Mathlib.Tactic.Ring
set_option autoImplicit false

/-!
# Rounding to binary numbers

A ratio that lies in the rounding interval of a binary number is rounded to this number
(`ofRatio_of_contains`).  The unit of the last place that is kept is found from the sizes of numerator
and denominator; it is the only one in which the ratio has as many bits as the format
(`lastExponent_eq`).
-/

namespace ObjectRuntime

namespace BinaryFormat

variable {f : BinaryFormat} {num den m : Nat} {e : Int}

theorem hiddenBit_eq (f : BinaryFormat) : (f.hiddenBit : ℚ) = 2 ^ (f.fractionBits : Int) := by
  simp [hiddenBit]

theorem hiddenBit_pos (f : BinaryFormat) : 0 < f.hiddenBit := Nat.two_pow_pos _

/-! ## Ratios and powers of two -/

theorem scaleRatio_pos (num : Nat) (h : 0 < den) (e : Int) : 0 < (scaleRatio num den e).2 := by
  unfold scaleRatio
  split
  · exact h
  · exact Nat.mul_pos h (Nat.two_pow_pos _)

theorem scaleRatio_value (num den : Nat) (e : Int) :
    ((scaleRatio num den e).1 : ℚ) / (scaleRatio num den e).2 = num / den * 2 ^ e := by
  unfold scaleRatio
  split
  · rename_i he
    obtain ⟨k, rfl⟩ := Int.eq_ofNat_of_zero_le he
    simp only [Int.toNat_natCast, Nat.pow_eq, Nat.cast_mul, Nat.cast_pow, Nat.cast_ofNat,
      zpow_natCast]
    ring
  · rename_i he
    obtain ⟨k, hk⟩ := Int.eq_ofNat_of_zero_le (show 0 ≤ -e by omega)
    obtain rfl : e = -k := by omega
    simp only [neg_neg, Int.toNat_natCast, Nat.pow_eq, Nat.cast_mul, Nat.cast_pow, Nat.cast_ofNat,
      zpow_neg, zpow_natCast, div_mul_eq_div_div, ← div_eq_mul_inv]

/-- A quotient is rounded to a number that is at most one half away, and less if it is odd. -/
theorem divEven_eq (hden : 0 < den)
    (hnear : (m : ℚ) - 1 / 2 ≤ num / den ∧ (num : ℚ) / den ≤ m + 1 / 2)
    (hodd : m % 2 = 1 → (m : ℚ) - 1 / 2 < num / den ∧ (num : ℚ) / den < m + 1 / 2) :
    divEven num den = m := by
  have hden' : (0 : ℚ) < den := by exact_mod_cast hden
  have hnum : num / den * den + num % den = num := by rw [Nat.mul_comm]; exact Nat.div_add_mod _ _
  have hrest : num % den < den := Nat.mod_lt _ hden
  rw [le_div_iff₀ hden', div_le_iff₀ hden'] at hnear
  rw [lt_div_iff₀ hden', div_lt_iff₀ hden'] at hodd
  have hlow : 2 * (m * den) ≤ 2 * num + den := by
    have : (2 * (m * den) : ℚ) ≤ 2 * num + den := by linarith
    exact_mod_cast this
  have hhigh : 2 * num ≤ 2 * (m * den) + den := by
    have : (2 * num : ℚ) ≤ 2 * (m * den) + den := by linarith
    exact_mod_cast this
  have hstrict : m % 2 = 1 → 2 * (m * den) < 2 * num + den ∧ 2 * num < 2 * (m * den) + den := by
    intro hm
    have hlt : (2 * (m * den) : ℚ) < 2 * num + den := by linarith [hodd hm]
    have hgt : (2 * num : ℚ) < 2 * (m * den) + den := by linarith [hodd hm]
    exact ⟨by exact_mod_cast hlt, by exact_mod_cast hgt⟩
  unfold divEven
  dsimp only
  generalize num / den = q, num % den = rest at hnum hrest ⊢
  have hlower : q ≤ m := by
    by_contra hlt
    have := Nat.mul_le_mul_right den (show m + 1 ≤ q by omega)
    rw [Nat.add_mul] at this
    omega
  have hupper : m ≤ q + 1 := by
    by_contra hlt
    have := Nat.mul_le_mul_right den (show q + 2 ≤ m by omega)
    rw [Nat.add_mul] at this
    omega
  rcases (show m = q ∨ m = q + 1 by omega) with rfl | rfl
  · refine if_neg fun h => ?_
    rcases h with h | ⟨h, hm⟩
    · omega
    · have := hstrict hm
      omega
  · rw [Nat.add_mul] at hlow hhigh hstrict
    refine if_pos ?_
    by_cases hq : q % 2 = 1
    · omega
    · have := hstrict (by omega)
      omega

/-! ## The unit of the last place -/

/-- A first guess at the exponent: the ratio has as many bits as the format, or one more. -/
theorem guess_bounds (hnum : 0 < num) (hden : 0 < den) :
    let guess : Int := (Nat.log2 num : Int) - Nat.log2 den - f.fractionBits - 1
    (f.hiddenBit : ℚ) * 2 ^ guess < num / den ∧ (num : ℚ) / den < 4 * f.hiddenBit * 2 ^ guess := by
  intro guess
  have hden' : (0 : ℚ) < den := by exact_mod_cast hden
  have hnumLow : (2 : ℚ) ^ (num.log2 : Int) ≤ num := by
    exact_mod_cast Nat.log2_self_le (Nat.ne_of_gt hnum)
  have hnumHigh : (num : ℚ) < 2 ^ (num.log2 + 1 : Int) := by exact_mod_cast Nat.lt_log2_self
  have hdenLow : (2 : ℚ) ^ (den.log2 : Int) ≤ den := by
    exact_mod_cast Nat.log2_self_le (Nat.ne_of_gt hden)
  have hdenHigh : (den : ℚ) < 2 ^ (den.log2 + 1 : Int) := by exact_mod_cast Nat.lt_log2_self
  have hlow : (f.hiddenBit : ℚ) * 2 ^ guess * 2 ^ (den.log2 + 1 : Int) = 2 ^ (num.log2 : Int) := by
    rw [hiddenBit_eq, ← zpow_add₀ two_ne_zero, ← zpow_add₀ two_ne_zero]
    congr 1
    omega
  have hhigh : 4 * (f.hiddenBit : ℚ) * 2 ^ guess * 2 ^ (den.log2 : Int) =
      2 ^ (num.log2 + 1 : Int) := by
    rw [hiddenBit_eq, show (4 : ℚ) = 2 ^ (2 : Int) by norm_num, ← zpow_add₀ two_ne_zero,
      ← zpow_add₀ two_ne_zero, ← zpow_add₀ two_ne_zero]
    congr 1
    omega
  have hpos : (0 : ℚ) < f.hiddenBit * 2 ^ guess := by
    rw [hiddenBit_eq]
    positivity
  constructor
  · rw [lt_div_iff₀ hden']
    calc (f.hiddenBit : ℚ) * 2 ^ guess * den
        < f.hiddenBit * 2 ^ guess * 2 ^ (den.log2 + 1 : Int) := by gcongr
      _ = 2 ^ (num.log2 : Int) := hlow
      _ ≤ num := hnumLow
  · rw [div_lt_iff₀ hden']
    calc (num : ℚ) < 2 ^ (num.log2 + 1 : Int) := hnumHigh
      _ = 4 * f.hiddenBit * 2 ^ guess * 2 ^ (den.log2 : Int) := hhigh.symm
      _ ≤ 4 * f.hiddenBit * 2 ^ guess * den := by gcongr

/-- The ratio has as many bits as the format in units of `2 ^ e`. -/
def Fills (f : BinaryFormat) (x : ℚ) (e : Int) : Prop :=
  (f.hiddenBit : ℚ) * 2 ^ e ≤ x ∧ x < 2 * f.hiddenBit * 2 ^ e

theorem exponent_le {x : ℚ} {e' : Int} (hlow : (f.hiddenBit : ℚ) * 2 ^ e ≤ x)
    (hhigh : x < 2 * f.hiddenBit * 2 ^ e') : e ≤ e' := by
  have hlt : (2 : ℚ) ^ (f.fractionBits + e : Int) < 2 ^ (f.fractionBits + e' + 1 : Int) := by
    rw [zpow_add₀ two_ne_zero, ← hiddenBit_eq, zpow_add_one₀ two_ne_zero,
      zpow_add₀ two_ne_zero, ← hiddenBit_eq]
    linarith
  have := (zpow_lt_zpow_iff_right₀ one_lt_two).mp hlt
  omega

theorem Fills.unique {x : ℚ} {e' : Int} (h : f.Fills x e) (h' : f.Fills x e') : e = e' :=
  le_antisymm (exponent_le h.1 h'.2) (exponent_le h'.1 h.2)

/-- The exponent of the last place is that in which the ratio fills the format, but not below the
least one. -/
theorem lastExponent_of_fills (hnum : 0 < num) (hden : 0 < den) :
    ∃ e, f.Fills (num / den) e ∧ f.lastExponent num den = max e f.leastExponent := by
  obtain ⟨hlow, hhigh⟩ := guess_bounds (f := f) hnum hden
  unfold lastExponent
  dsimp only
  generalize (Nat.log2 num : Int) - Nat.log2 den - f.fractionBits - 1 = guess at hlow hhigh ⊢
  have hvalue := scaleRatio_value num den (-guess)
  have hpos := scaleRatio_pos num hden (-guess)
  generalize (scaleRatio num den (-guess)).1 = n, (scaleRatio num den (-guess)).2 = d
    at hvalue hpos ⊢
  have hlarge : 2 * f.hiddenBit ≤ n / d ↔ 2 * (f.hiddenBit : ℚ) * 2 ^ guess ≤ num / den := by
    have hd : (0 : ℚ) < d := by exact_mod_cast hpos
    have hunit : (0 : ℚ) < 2 ^ guess := by positivity
    rw [Nat.le_div_iff_mul_le hpos, ← le_div_iff₀ hunit, div_eq_mul_inv _ (2 ^ guess), ← zpow_neg,
      ← hvalue, le_div_iff₀ hd]
    exact_mod_cast Iff.rfl
  by_cases h : 2 * f.hiddenBit ≤ n / d
  · refine ⟨guess + 1, ⟨?_, ?_⟩, by rw [if_pos h]⟩
    · rw [zpow_add_one₀ two_ne_zero]
      linarith [hlarge.mp h]
    · rw [zpow_add_one₀ two_ne_zero]
      linarith
  · exact ⟨guess, ⟨hlow.le, not_le.mp fun hle => h (hlarge.mpr hle)⟩, by rw [if_neg h]⟩

/-- The exponent of the last place of a ratio that has no more bits than the format, and no fewer if
the exponent is not the least. -/
theorem lastExponent_eq (hnum : 0 < num) (hden : 0 < den)
    (hhigh : (num : ℚ) / den < 2 * f.hiddenBit * 2 ^ e)
    (hlow : e = f.leastExponent ∨ f.leastExponent ≤ e ∧ (f.hiddenBit : ℚ) * 2 ^ e ≤ num / den) :
    f.lastExponent num den = e := by
  obtain ⟨e', hfills, heq⟩ := lastExponent_of_fills (f := f) hnum hden
  rw [heq]
  rcases hlow with rfl | ⟨hle, hlow⟩
  · exact max_eq_right (exponent_le hfills.1 hhigh)
  · obtain rfl := hfills.unique ⟨hlow, hhigh⟩
    exact max_eq_left hle

end BinaryFormat

/-! ## Rounding intervals -/

theorem pow_toNat {b : Nat} (hb : b ≠ 0) (k : Int) :
    ((b ^ k.toNat : Nat) : ℚ) = (b : ℚ) ^ k * (b ^ (-k).toNat : Nat) := by
  have hb' : (b : ℚ) ≠ 0 := by exact_mod_cast hb
  push_cast
  rw [← zpow_natCast, ← zpow_natCast, ← zpow_add₀ hb']
  congr 1
  omega

namespace RoundingInterval

variable {r : RoundingInterval} {f : BinaryFormat} {m n d : Nat} {e : Int} {x : ℚ}

/-- The number lies in the interval. -/
def Contains (r : RoundingInterval) (x : ℚ) : Prop :=
  ((r.low : ℚ) ≤ x * r.den ∧ x * r.den ≤ r.high) ∧
    (r.closed = false → (r.low : ℚ) < x * r.den ∧ x * r.den < r.high)

theorem holds_iff (hd : 0 < d) : r.holds n d = true ↔ r.Contains (n / d) := by
  have hd' : (0 : ℚ) < d := by exact_mod_cast hd
  have hvalue : (n : ℚ) / d * r.den = (n * r.den : Nat) / d := by
    push_cast
    ring
  have hle : r.low * d ≤ n * r.den ↔ (r.low : ℚ) ≤ n / d * r.den := by
    rw [hvalue, le_div_iff₀ hd']
    exact_mod_cast Iff.rfl
  have hge : n * r.den ≤ r.high * d ↔ (n : ℚ) / d * r.den ≤ r.high := by
    rw [hvalue, div_le_iff₀ hd']
    exact_mod_cast Iff.rfl
  have hlt : r.low * d < n * r.den ↔ (r.low : ℚ) < n / d * r.den := by
    rw [hvalue, lt_div_iff₀ hd']
    exact_mod_cast Iff.rfl
  have hgt : n * r.den < r.high * d ↔ (n : ℚ) / d * r.den < r.high := by
    rw [hvalue, div_lt_iff₀ hd']
    exact_mod_cast Iff.rfl
  unfold holds Contains
  cases r.closed with
  | true => simp [hle, hge]
  | false =>
      simp only [Bool.false_eq_true, if_false, Bool.and_eq_true, decide_eq_true_eq, hlt, hgt,
        forall_const]
      exact ⟨fun h => ⟨⟨h.1.le, h.2.le⟩, h⟩, fun h => h.2⟩

/-- The ends of an interval are counted in quarters of a unit of the last place. -/
theorem quarters (e : Int) :
    (2 : ℚ) ^ e * (2 ^ (2 - e).toNat : Nat) = 4 * (2 ^ (e - 2).toNat : Nat) := by
  have hunit : (2 : ℚ) ^ e * 2 ^ (2 - e) = 4 := by
    rw [← zpow_add₀ two_ne_zero, add_sub_cancel]
    norm_num
  rw [pow_toNat two_ne_zero, neg_sub, Nat.cast_ofNat]
  linear_combination (2 ^ (e - 2).toNat : Nat) * hunit

/-- The number in the middle. -/
theorem ofParts_value (f : BinaryFormat) (m : Nat) (e : Int) :
    ((ofParts f m e).num : ℚ) / (ofParts f m e).den = m * 2 ^ e := by
  simp only [ofParts, Nat.pow_eq, Nat.cast_mul, Nat.cast_ofNat]
  rw [div_eq_iff (by positivity)]
  linear_combination -(m : ℚ) * quarters e

/-- The distance from a number to the lower end of its interval, in units of its last place. -/
def lowerHalf (f : BinaryFormat) (m : Nat) (e : Int) : ℚ :=
  if m = f.hiddenBit ∧ e > f.leastExponent then 1 / 4 else 1 / 2

theorem lowerHalf_bounds (f : BinaryFormat) (m : Nat) (e : Int) :
    0 < lowerHalf f m e ∧ lowerHalf f m e ≤ 1 / 2 := by
  unfold lowerHalf
  split_ifs <;> norm_num

/-- The interval of a number ends half way to its neighbours. -/
theorem contains_ofParts (hm : 0 < m) : (ofParts f m e).Contains x ↔
    (m - lowerHalf f m e ≤ x / 2 ^ e ∧ x / 2 ^ e ≤ m + 1 / 2) ∧
      (m % 2 = 1 → m - lowerHalf f m e < x / 2 ^ e ∧ x / 2 ^ e < m + 1 / 2) := by
  obtain ⟨u, rfl⟩ : ∃ u, x = u * 2 ^ e := ⟨x / 2 ^ e, (div_mul_cancel₀ x (by positivity)).symm⟩
  rw [mul_div_cancel_right₀ u (by positivity)]
  have hvalue : u * 2 ^ e * (2 ^ (2 - e).toNat : Nat) = 4 * u * (2 ^ (e - 2).toNat : Nat) := by
    linear_combination u * quarters e
  have hquarter : (0 : ℚ) < (2 ^ (e - 2).toNat : Nat) := by positivity
  have hlow : (((4 * m - if m = f.hiddenBit ∧ e > f.leastExponent then 1 else 2 : Nat) : Nat) : ℚ) =
      4 * (m - lowerHalf f m e) := by
    rw [Nat.cast_sub (by split_ifs <;> omega), lowerHalf]
    split_ifs <;> push_cast <;> ring
  have hhigh : ((4 * m + 2 : Nat) : ℚ) = 4 * (m + 1 / 2) := by
    push_cast
    ring
  have hodd : (m % 2 == 0) = false ↔ m % 2 = 1 := by
    rw [beq_eq_false_iff_ne]
    omega
  simp only [Contains, ofParts, Nat.pow_eq, Nat.cast_mul, hvalue, hlow, hhigh, hodd,
    mul_le_mul_iff_left₀ hquarter, mul_lt_mul_iff_left₀ hquarter, mul_le_mul_iff_right₀ four_pos,
    mul_lt_mul_iff_right₀ four_pos]

theorem contains_pos (hm : 0 < m) (h : (ofParts f m e).Contains x) : 0 < x := by
  have hm' : (1 : ℚ) ≤ m := by exact_mod_cast hm
  obtain ⟨⟨hlow, -⟩, -⟩ := (contains_ofParts hm).mp h
  have hhalf := (lowerHalf_bounds f m e).2
  exact (div_pos_iff_of_pos_right (show (0 : ℚ) < 2 ^ e by positivity)).mp (by linarith)

end RoundingInterval

namespace BinaryFormat

variable {f : BinaryFormat} {num den m bits : Nat} {e : Int} {s : Bool}

/-- The significand fits the format, and fills it unless the exponent is the least. -/
structure Canonical (f : BinaryFormat) (m : Nat) (e : Int) : Prop where
  least : f.leastExponent ≤ e
  fits : m < 2 * f.hiddenBit
  fills : e = f.leastExponent ∨ f.hiddenBit ≤ m

/-- A ratio is rounded in units of its last place. -/
theorem ofRatio_of_near (hnum : 0 < num) (hden : 0 < den) (hlast : f.lastExponent num den = e)
    (hnear : (m : ℚ) - 1 / 2 ≤ num / den / 2 ^ e ∧ (num : ℚ) / den / 2 ^ e ≤ m + 1 / 2)
    (hodd : m % 2 = 1 →
      (m : ℚ) - 1 / 2 < num / den / 2 ^ e ∧ (num : ℚ) / den / 2 ^ e < m + 1 / 2) :
    f.ofRatio num den = min ((e - f.leastExponent).toNat * f.hiddenBit + m) f.infinityBits := by
  have hrounded : divEven (scaleRatio num den (-e)).1 (scaleRatio num den (-e)).2 = m := by
    rw [div_eq_mul_inv _ ((2 : ℚ) ^ e), ← zpow_neg, ← scaleRatio_value] at hnear hodd
    exact divEven_eq (scaleRatio_pos num hden (-e)) hnear hodd
  rw [ofRatio, if_neg (Nat.ne_of_gt hnum)]
  simp only [hlast, hrounded]

/-- A ratio in the interval of a number is rounded to this number. -/
theorem ofRatio_of_contains (h : f.Canonical m e) (hm : 0 < m) (hden : 0 < den)
    (hx : (RoundingInterval.ofParts f m e).Contains (num / den)) :
    f.ofRatio num den =
      min ((e - f.leastExponent).toNat * f.hiddenBit + m) f.infinityBits := by
  obtain ⟨⟨hlow, hhigh⟩, hodd⟩ := (RoundingInterval.contains_ofParts hm).mp hx
  have hunit : (0 : ℚ) < 2 ^ e := by positivity
  have hone : (1 : ℚ) ≤ f.hiddenBit := by exact_mod_cast f.hiddenBit_pos
  have hfits : (m : ℚ) + 1 ≤ 2 * f.hiddenBit := by exact_mod_cast h.fits
  obtain ⟨-, hhalf⟩ := RoundingInterval.lowerHalf_bounds f m e
  have hnum : 0 < num := Nat.pos_of_ne_zero fun hzero => by
    simpa [hzero] using RoundingInterval.contains_pos hm hx
  by_cases hfull : e = f.leastExponent ∨ (f.hiddenBit : ℚ) ≤ num / den / 2 ^ e
  · refine ofRatio_of_near hnum hden (lastExponent_eq hnum hden ?_ ?_)
      ⟨by linarith, hhigh⟩ fun hm => ⟨by linarith [hodd hm], (hodd hm).2⟩
    · rw [← div_lt_iff₀ hunit]
      linarith
    · exact hfull.imp_right fun hle => ⟨h.least, (le_div_iff₀ hunit).mp hle⟩
  · -- just below a power of two, where the unit of the last place is half as large
    obtain ⟨hleast, hless⟩ := not_or.mp hfull
    rw [not_le] at hless
    obtain rfl : m = f.hiddenBit := by
      refine le_antisymm ?_ (h.fills.resolve_left hleast)
      have : (m : ℚ) < f.hiddenBit + 1 := by linarith
      exact Nat.le_of_lt_succ (by exact_mod_cast this)
    have hquarter : RoundingInterval.lowerHalf f f.hiddenBit e = 1 / 4 :=
      if_pos ⟨rfl, lt_of_le_of_ne h.least (Ne.symm hleast)⟩
    rw [hquarter] at hlow
    have hdouble : (num : ℚ) / den / 2 ^ (e - 1) = 2 * (num / den / 2 ^ e) := by
      rw [zpow_sub_one₀ two_ne_zero]
      field_simp
    have hunit' : (0 : ℚ) < 2 ^ (e - 1) := by positivity
    have hlast : f.lastExponent num den = e - 1 := by
      refine lastExponent_eq hnum hden ?_ (.inr ⟨by have := h.least; omega, ?_⟩)
      · rw [← div_lt_iff₀ hunit', hdouble]
        linarith
      · rw [← le_div_iff₀ hunit', hdouble]
        linarith
    have hrounded := ofRatio_of_near (m := 2 * f.hiddenBit) hnum hden hlast
      ⟨by rw [hdouble]; push_cast; linarith, by rw [hdouble]; push_cast; linarith⟩ (by omega)
    obtain ⟨k, hk⟩ := Int.eq_ofNat_of_zero_le (show 0 ≤ e - 1 - f.leastExponent by
      have := h.least
      omega)
    have hk' : e - f.leastExponent = (k + 1 : Nat) := by omega
    rw [hrounded, hk, hk', Int.toNat_natCast, Int.toNat_natCast]
    congr 1
    ring

/-- The bits of a finite number. -/
theorem bits_of_unpack (h : f.unpack bits = .finite s m e) :
    f.Canonical m e ∧ bits % f.signBit = (e - f.leastExponent).toNat * f.hiddenBit + m ∧
      bits % f.signBit < f.infinityBits ∧ s = (bits / f.signBit % 2 == 1) := by
  unfold unpack at h
  dsimp only at h
  have hpos := f.hiddenBit_pos
  have hparts : f.hiddenBit * (bits % f.signBit / f.hiddenBit) + bits % f.signBit % f.hiddenBit =
    bits % f.signBit := Nat.div_add_mod _ _
  have hfraction : bits % f.signBit % f.hiddenBit < f.hiddenBit := Nat.mod_lt _ hpos
  generalize bits % f.signBit = magnitude at *
  generalize magnitude / f.hiddenBit = exponent, magnitude % f.hiddenBit = fraction at *
  split_ifs at h with hnan hinfinite hzero
  · cases h
    refine ⟨⟨le_rfl, by omega, .inl rfl⟩, ?_, by omega, rfl⟩
    rw [hzero] at hparts
    simp [← hparts]
  · cases h
    obtain ⟨k, rfl⟩ := Nat.exists_eq_add_one_of_ne_zero hzero
    refine ⟨⟨by omega, by omega, .inr (by omega)⟩, ?_, by omega, rfl⟩
    have hk : (f.leastExponent + ((k + 1 - 1 : Nat) : Int) - f.leastExponent).toNat = k := by omega
    rw [hk, ← hparts]
    ring

/-- The sign and the magnitude are all bits. -/
theorem withSign_of_bits (h : bits < 2 * f.signBit) :
    f.withSign (bits / f.signBit % 2 == 1) (bits % f.signBit) = bits := by
  have hparts : f.signBit * (bits / f.signBit) + bits % f.signBit = bits := Nat.div_add_mod _ _
  have hsign : bits / f.signBit < 2 := (Nat.div_lt_iff_lt_mul (Nat.two_pow_pos _)).mpr h
  generalize bits / f.signBit = sign at hparts hsign ⊢
  interval_cases sign <;> simpa [withSign] using hparts

end BinaryFormat

namespace Double

variable {x : Double} {s : Bool} {num den m : Nat} {e : Int}

theorem eq_of_bits {magnitude : Nat}
    (hsign : s = (x.bits.toNat / BinaryFormat.double.signBit % 2 == 1))
    (hmagnitude : x.bits.toNat % BinaryFormat.double.signBit = magnitude) :
    x = ⟨UInt64.ofNat (BinaryFormat.double.withSign s magnitude)⟩ := by
  have hbits : x.bits.toNat < 2 * BinaryFormat.double.signBit := x.bits.toNat_lt
  rw [hsign, ← hmagnitude, BinaryFormat.withSign_of_bits hbits, UInt64.ofNat_toNat]

/-- A ratio in the interval of a number is rounded to this number. -/
theorem ofRatio_of_contains (hx : x.unpack = .finite s m e) (hm : 0 < m) (hden : 0 < den)
    (h : (RoundingInterval.ofParts BinaryFormat.double m e).Contains (num / den)) :
    Double.ofRatio s num den = x := by
  obtain ⟨hcanonical, hbits, hfinite, hsign⟩ := BinaryFormat.bits_of_unpack hx
  rw [Double.ofRatio, BinaryFormat.ofRatio_of_contains hcanonical hm hden h, ← hbits,
    min_eq_left hfinite.le]
  exact (eq_of_bits hsign rfl).symm

theorem ofRatio_zero (hx : x.unpack = .finite s 0 e) : Double.ofRatio s 0 1 = x := by
  obtain ⟨hcanonical, hbits, hfinite, hsign⟩ := BinaryFormat.bits_of_unpack hx
  have hleast : e = BinaryFormat.double.leastExponent :=
    hcanonical.fills.resolve_right (by decide)
  exact (eq_of_bits hsign (hbits.trans (by simp [hleast, BinaryFormat.ofRatio]))).symm

theorem infinity_of_unpack (hx : x.unpack = .infinite s) : Double.infinity s = x := by
  unfold unpack BinaryFormat.unpack at hx
  dsimp only at hx
  split_ifs at hx with hnan hinfinite hzero
  cases hx
  exact (eq_of_bits rfl hinfinite).symm

end Double

end ObjectRuntime
