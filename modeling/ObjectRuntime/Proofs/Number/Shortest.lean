import ObjectRuntime.Proofs.Number.Rounding
set_option autoImplicit false

/-!
# Shortest decimal numbers

The search for the shortest decimal number finds one that rounds to the number it is made for
(`shortest_contains`): what it finds lies in the rounding interval, and seventeen digits are always
enough, since a grid of so many digits is finer than the interval is wide.
-/

namespace ObjectRuntime

namespace Decimal

variable {tie : TieRule} {r : RoundingInterval} {p : Int} {digits fuel k num den n m : Nat}
  {d : Decimal} {e : Int}

/-- The number that is written. -/
def value (d : Decimal) : ℚ := d.digits * 10 ^ d.exponent

/-! ## Powers of ten -/

theorem powTen_pos (e : Int) : 0 < (powTen e).1 ∧ 0 < (powTen e).2 :=
  ⟨Nat.pow_pos (by decide), Nat.pow_pos (by decide)⟩

theorem powTen_value (e : Int) : ((powTen e).1 : ℚ) / (powTen e).2 = 10 ^ e := by
  have hden : ((powTen e).2 : ℚ) ≠ 0 := by exact_mod_cast Nat.ne_of_gt (powTen_pos e).2
  rw [div_eq_iff hden]
  exact pow_toNat (b := 10) (by decide) e

theorem digitCount_pos (n : Nat) : 0 < digitCount n := Nat.length_toDigits_pos

theorem lt_pow_digitCount (n : Nat) : n < 10 ^ digitCount n :=
  (Nat.length_toDigits_le_iff (by decide) (digitCount_pos n)).mp le_rfl

theorem pow_le_of_digitCount (hn : 0 < n) : 10 ^ (digitCount n - 1) ≤ n := by
  by_contra hlt
  cases hk : digitCount n - 1 with
  | zero =>
      rw [hk] at hlt
      omega
  | succ k =>
      have hle := (Nat.length_toDigits_le_iff (by decide) (by omega)).mpr (not_le.mp hlt)
      have hpos := digitCount_pos n
      unfold digitCount at hle hk hpos
      omega

theorem pow_neg_le_ratio (hden : 0 < den) (k : Nat) :
    (10 : ℚ) ^ (-k : Int) ≤ num / den ↔ den ≤ num * 10 ^ k := by
  have hden' : (0 : ℚ) < den := by exact_mod_cast hden
  rw [zpow_neg, zpow_natCast, le_div_iff₀ hden', inv_mul_le_iff₀ (by positivity), mul_comm]
  exact_mod_cast Iff.rfl

theorem ratio_lt_pow_neg (hden : 0 < den) (k : Nat) :
    (num : ℚ) / den < 10 ^ (-k : Int) ↔ num * 10 ^ k < den := by
  rw [← not_le, pow_neg_le_ratio hden, not_le]

/-- The magnitude of a positive ratio is the number of digits before its point. -/
theorem magnitude_bounds (hnum : 0 < num) (hden : 0 < den) :
    (10 : ℚ) ^ (magnitude num den - 1) ≤ num / den ∧ (num : ℚ) / den < 10 ^ magnitude num den := by
  have hden' : (0 : ℚ) < den := by exact_mod_cast hden
  unfold magnitude
  by_cases hle : den ≤ num
  · have hlow := pow_le_of_digitCount (Nat.div_pos hle hden)
    have hhigh := lt_pow_digitCount (num / den)
    have hpos := digitCount_pos (num / den)
    rw [Nat.le_div_iff_mul_le hden] at hlow
    rw [Nat.div_lt_iff_lt_mul hden] at hhigh
    rw [if_pos hle]
    generalize digitCount (num / den) = count at hlow hhigh hpos ⊢
    rw [show (count : Int) - 1 = (count - 1 : Nat) by omega, zpow_natCast, zpow_natCast,
      le_div_iff₀ hden', div_lt_iff₀ hden']
    exact ⟨by exact_mod_cast hlow, by exact_mod_cast hhigh⟩
  · have hlow := pow_le_of_digitCount (Nat.div_pos (Nat.le_of_not_le hle) hnum)
    have hhigh := lt_pow_digitCount (den / num)
    have hpos := digitCount_pos (den / num)
    rw [Nat.le_div_iff_mul_le hnum, Nat.mul_comm] at hlow
    rw [Nat.div_lt_iff_lt_mul hnum, Nat.mul_comm] at hhigh
    rw [if_neg hle]
    generalize digitCount (den / num) = count at hlow hhigh hpos ⊢
    obtain ⟨zeros, rfl⟩ := Nat.exists_eq_add_one_of_ne_zero (Nat.ne_of_gt hpos)
    simp only [Nat.add_sub_cancel, Nat.pow_eq] at hlow ⊢
    split_ifs with hone
    · have hvalue : (num : ℚ) / den = 10 ^ (-zeros : Int) := by
        rw [div_eq_iff hden'.ne', ← hone, zpow_neg, zpow_natCast]
        push_cast
        field_simp
      rw [hvalue, show (1 : Int) - zeros - 1 = -zeros by ring]
      exact ⟨le_rfl, zpow_lt_zpow_right₀ (by norm_num) (by omega)⟩
    · rw [show -(zeros : Int) - 1 = -(zeros + 1 : Nat) by push_cast; ring]
      exact ⟨(pow_neg_le_ratio hden _).mpr hhigh.le,
        (ratio_lt_pow_neg hden zeros).mpr (lt_of_le_of_ne hlow hone)⟩

/-! ## Grids of decimal numbers -/

theorem onGrid_value (p : Int) (digits q : Nat) :
    (onGrid p digits q).value = q * 10 ^ (p - digits) := by
  unfold onGrid
  split
  · rename_i hq
    subst hq
    have hpow : (10 : ℚ) ^ (digits : Int) * 10 ^ (p - digits) = 10 ^ p := by
      rw [← zpow_add₀ (by norm_num), add_sub_cancel]
    simpa [value] using hpow.symm
  · rfl

/-- A neighbour on the grid is in the interval if the test says so. -/
theorem holds_onGrid_iff (r : RoundingInterval) (p : Int) (digits q : Nat) :
    r.holds (q * (powTen (p - digits)).1) (powTen (p - digits)).2 = true ↔
      r.Contains (onGrid p digits q).value := by
  rw [RoundingInterval.holds_iff (powTen_pos _).2, onGrid_value, ← powTen_value, Nat.cast_mul,
    mul_div_assoc]

/-- What is found on a grid is one of the neighbours, if it lies in the interval. -/
theorem contains_of_nearestOn (h : nearestOn tie r p digits = some d) : r.Contains d.value := by
  unfold nearestOn at h
  dsimp only at h
  split_ifs at h with hlow hhigh
  · cases h
    exact (holds_onGrid_iff ..).mp (Bool.and_eq_true _ _ ▸ hlow).1
  · cases h
    exact (holds_onGrid_iff ..).mp hhigh

/-- The neighbours of a ratio among the multiples of another ratio. -/
theorem neighbours (num : Nat) {n d : Nat} (hden : 0 < den) (hn : 0 < n) (hd : 0 < d) :
    ((num * d / (den * n) : Nat) : ℚ) * (n / d) ≤ num / den ∧
      (num : ℚ) / den < ((num * d / (den * n) : Nat) + 1) * (n / d) := by
  have hden' : (0 : ℚ) < den := by exact_mod_cast hden
  have hd' : (0 : ℚ) < d := by exact_mod_cast hd
  have hlow := Nat.div_mul_le_self (num * d) (den * n)
  have hhigh : num * d < (num * d / (den * n) + 1) * (den * n) :=
    Nat.lt_mul_of_div_lt (Nat.lt_succ_self _) (Nat.mul_pos hden hn)
  generalize num * d / (den * n) = q at hlow hhigh ⊢
  rw [← mul_div_assoc, ← mul_div_assoc, div_le_div_iff₀ hd' hden', div_lt_div_iff₀ hden' hd']
  constructor
  · have : ((q * (den * n) : Nat) : ℚ) ≤ (num * d : Nat) := by exact_mod_cast hlow
    push_cast at this
    linarith
  · have : ((num * d : Nat) : ℚ) < ((q + 1) * (den * n) : Nat) := by exact_mod_cast hhigh
    push_cast at this
    linarith

/-- A number is found on a grid that is finer than the interval. -/
theorem exists_nearestOn (low high : ℚ) (hden : 0 < r.den)
    (hin : ∀ y, low < y → y < high → r.Contains y) (hlow : low < (r.num : ℚ) / r.den)
    (hhigh : (r.num : ℚ) / r.den < high)
    (hgrid : (10 : ℚ) ^ (p - digits) < high - low) : ∃ d, nearestOn tie r p digits = some d := by
  obtain ⟨hbelow, habove⟩ := neighbours r.num hden (powTen_pos (p - digits)).1
    (powTen_pos (p - digits)).2
  have hholds := holds_onGrid_iff r p digits
  rw [powTen_value] at hbelow habove
  simp only [onGrid_value] at hholds
  unfold nearestOn
  dsimp only
  generalize r.num * (powTen (p - digits)).2 / (r.den * (powTen (p - digits)).1) = q
    at hbelow habove ⊢
  have hone : r.holds (q * (powTen (p - digits)).1) (powTen (p - digits)).2 = true ∨
      r.holds ((q + 1) * (powTen (p - digits)).1) (powTen (p - digits)).2 = true := by
    rw [hholds, hholds, Nat.cast_add, Nat.cast_one]
    by_cases h : low < q * 10 ^ (p - digits)
    · exact .inl (hin _ h (by linarith))
    · exact .inr (hin _ (by linarith) (by linarith))
  split_ifs with hfirst hsecond
  · exact ⟨_, rfl⟩
  · exact ⟨_, rfl⟩
  · simp_all

/-! ## The search -/

theorem contains_of_shortestFrom (h : shortestFrom tie r p digits fuel = some d) :
    r.Contains d.value := by
  induction fuel generalizing digits with
  | zero => cases h
  | succ fuel ih =>
      unfold shortestFrom at h
      split at h
      · rename_i hfound
        cases h
        exact contains_of_nearestOn hfound
      · exact ih h

theorem exists_shortestFrom (h : ∃ d, nearestOn tie r p k = some d) (hk : digits ≤ k)
    (hfuel : k < digits + fuel) : ∃ d, shortestFrom tie r p digits fuel = some d := by
  induction fuel generalizing digits with
  | zero => omega
  | succ fuel ih =>
      unfold shortestFrom
      split
      · exact ⟨_, rfl⟩
      · rename_i hnone
        rcases Nat.eq_or_lt_of_le hk with rfl | hlt
        · obtain ⟨d, hd⟩ := h
          cases hnone.symm.trans hd
        · exact ih hlt (by omega)

/-- A grid of seventeen digits is finer than the interval of a number is wide. -/
theorem finer_than_interval {grid : ℚ} (h : BinaryFormat.double.Canonical m e)
    (hgrid : grid * 10 ^ 16 ≤ m * 2 ^ e) :
    grid < (RoundingInterval.lowerHalf BinaryFormat.double m e + 1 / 2) * 2 ^ e := by
  have hunit : (0 : ℚ) < 2 ^ e := by positivity
  have hhidden : BinaryFormat.double.hiddenBit = 2 ^ 52 := rfl
  unfold RoundingInterval.lowerHalf
  split_ifs with hpower
  · rw [hpower.1, hhidden] at hgrid
    push_cast at hgrid
    linarith
  · have hm : (m : ℚ) ≤ 2 ^ 53 := by exact_mod_cast h.fits.le
    have : m * 2 ^ e ≤ 2 ^ 53 * (2 : ℚ) ^ e := mul_le_mul_of_nonneg_right hm hunit.le
    linarith

/-- The shortest decimal number for a number is found, and rounds to it. -/
theorem shortest_contains (tie : TieRule) (h : BinaryFormat.double.Canonical m e) (hm : 0 < m) :
    ∃ d, shortest tie BinaryFormat.double m e = some d ∧
      (RoundingInterval.ofParts BinaryFormat.double m e).Contains d.value := by
  let r := RoundingInterval.ofParts BinaryFormat.double m e
  have hunit : (0 : ℚ) < 2 ^ e := by positivity
  have hden : 0 < r.den := Nat.two_pow_pos _
  have hnum : 0 < r.num := Nat.mul_pos (by omega) (Nat.two_pow_pos _)
  have hvalue := RoundingInterval.ofParts_value BinaryFormat.double m e
  obtain ⟨hhalf, -⟩ := RoundingInterval.lowerHalf_bounds BinaryFormat.double m e
  obtain ⟨hlow, hhigh⟩ := magnitude_bounds hnum hden
  have hfound : ∃ d, nearestOn tie r (magnitude r.num r.den) 17 = some d := by
    refine exists_nearestOn ((m - RoundingInterval.lowerHalf BinaryFormat.double m e) * 2 ^ e)
      ((m + 1 / 2) * 2 ^ e) hden (fun y hlow hhigh => ?_) ?_ ?_ ?_
    · rw [← lt_div_iff₀ hunit] at hlow
      rw [← div_lt_iff₀ hunit] at hhigh
      exact (RoundingInterval.contains_ofParts hm).mpr
        ⟨⟨hlow.le, hhigh.le⟩, fun _ => ⟨hlow, hhigh⟩⟩
    · rw [hvalue]
      gcongr
      linarith
    · rw [hvalue]
      gcongr
      linarith
    · have hgrid : (10 : ℚ) ^ (magnitude r.num r.den - (17 : Nat)) * 10 ^ 16 ≤ m * 2 ^ e := by
        rw [← hvalue, ← zpow_natCast, ← zpow_add₀ (by norm_num)]
        exact (le_of_eq (by congr 1; push_cast; ring)).trans hlow
      linarith [finer_than_interval h hgrid]
  obtain ⟨d, hd⟩ : ∃ d, shortestFrom tie r (magnitude r.num r.den) 1 17 = some d :=
    exists_shortestFrom hfound (by omega) (by omega)
  exact ⟨d, hd, contains_of_shortestFrom hd⟩

end Decimal

end ObjectRuntime
