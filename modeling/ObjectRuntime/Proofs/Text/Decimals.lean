import ObjectRuntime.Proofs.Number.Shortest
import ObjectRuntime.Proofs.Text.Numbers
set_option autoImplicit false

/-!
# Decimal texts that are read back

Every floating point number that is a number is read back from its text, bit by bit (`readsBack`).
The text is that of a decimal number which rounds to it, digits are read as they are written with or
without a point, and what is read is rounded once.
-/

namespace ObjectRuntime

open IntKind (digit?)

namespace Decimal

variable {d : Decimal} {whole fraction cs : List Char} {n k : Nat}

/-! ## Digits -/

theorem ofDigits_eq (cs : List Char) : ofDigits cs = Nat.ofDigitChars 10 cs 0 := by
  simp only [ofDigits, Nat.ofDigitChars_eq_foldl, Nat.mul_comm]

theorem ofDigits_toDigits (n : Nat) : ofDigits (Nat.toDigits 10 n) = n := by
  rw [ofDigits_eq, Nat.ofDigitChars_toDigits (by decide) (by decide)]

/-- Zeros behind a number. -/
theorem ofDigits_append_zeros (cs : List Char) (k : Nat) :
    ofDigits (cs ++ List.replicate k '0') = ofDigits cs * 10 ^ k := by
  rw [ofDigits_eq, Nat.ofDigitChars_append, Nat.ofDigitChars_replicate_zero, ← ofDigits_eq,
    Nat.mul_comm]

/-- Zeros in front of a number. -/
theorem ofDigits_zeros_append (k : Nat) (cs : List Char) :
    ofDigits (List.replicate k '0' ++ cs) = ofDigits cs := by
  rw [ofDigits_eq, Nat.ofDigitChars_append, Nat.ofDigitChars_replicate_zero, Nat.mul_zero,
    ← ofDigits_eq]

theorem isSome_digit?_of_mem_toDigits {c : Char} (h : c ∈ Nat.toDigits 10 n) :
    (digit? c).isSome := by
  have hdigit := Nat.isDigit_of_mem_toDigits (by decide) (by decide) h
  simp only [Char.isDigit, Bool.and_eq_true, decide_eq_true_eq] at hdigit
  have hrange : '0' ≤ c ∧ c ≤ '9' := hdigit
  rw [digit?, if_pos hrange]
  rfl

/-! ## Numbers with a point -/

/-- A text of digits, with or without a point behind the first part of them. -/
structure Digits (whole fraction cs : List Char) : Prop where
  digits : ∀ c ∈ whole ++ fraction, (digit? c).isSome
  nonempty : whole ≠ []
  text : cs = whole ++ '.' :: fraction ∨ cs = whole ∧ fraction = []

/-- The point counts the digits behind it. -/
theorem Digits.readUnsigned (h : Digits whole fraction cs) :
    readUnsigned cs = some (ofDigits (whole ++ fraction), -(fraction.length : Int)) := by
  obtain ⟨hdigits, hne, rfl | ⟨rfl, rfl⟩⟩ := h
  · obtain ⟨hwhole, hfraction⟩ := List.forall_mem_append.mp hdigits
    have hspan : spanDigits (whole ++ '.' :: fraction) = (whole, '.' :: fraction) :=
      span_append hwhole (by simp; rfl)
    simp [Decimal.readUnsigned, hspan, Double.spanDigits_of_digits hfraction, hne]
  · rw [List.append_nil] at hdigits ⊢
    exact Double.readUnsigned_of_digits hdigits hne

theorem Digits.head (h : Digits whole fraction cs) :
    ∃ c rest, cs = c :: rest ∧ (digit? c).isSome := by
  obtain ⟨hdigits, hne, htext⟩ := h
  obtain ⟨c, rest, rfl⟩ := List.exists_cons_of_ne_nil hne
  have hc := hdigits c (by simp)
  rcases htext with rfl | ⟨rfl, -⟩
  · exact ⟨c, _, rfl, hc⟩
  · exact ⟨c, rest, rfl, hc⟩

/-- A decimal number is written with its digits. -/
theorem toPositional_digits (d : Decimal) : ∃ whole fraction,
    Digits whole fraction d.toPositional.toList ∧
      (ofDigits (whole ++ fraction) : ℚ) * 10 ^ (-(fraction.length : Int)) = d.value := by
  have hds : ∀ c ∈ Nat.toDigits 10 d.digits, (digit? c).isSome :=
    fun c hc => isSome_digit?_of_mem_toDigits hc
  have hzeros : ∀ k, ∀ c ∈ List.replicate k '0', (digit? c).isSome := by
    intro k c hc
    rw [List.eq_of_mem_replicate hc]
    rfl
  unfold toPositional
  dsimp only
  split_ifs with hexponent hpoint
  · obtain ⟨k, hk⟩ := Int.eq_ofNat_of_zero_le hexponent
    refine ⟨_, [], ⟨?_, ?_, .inr ⟨String.toList_ofList, rfl⟩⟩, ?_⟩
    · rw [List.append_nil]
      exact List.forall_mem_append.mpr ⟨hds, hzeros _⟩
    · simp [Nat.toDigits_ne_nil]
    · rw [List.append_nil, ofDigits_append_zeros, ofDigits_toDigits]
      simp [value, hk]
  · obtain ⟨places, hplaces⟩ := Int.eq_ofNat_of_zero_le (show 0 ≤ -d.exponent by omega)
    rw [hplaces, Int.toNat_natCast] at hpoint ⊢
    refine ⟨_, _, ⟨?_, ?_, .inl String.toList_ofList⟩, ?_⟩
    · rwa [List.take_append_drop]
    · simp [Nat.toDigits_ne_nil]
      omega
    · rw [List.take_append_drop, ofDigits_toDigits, List.length_drop, Nat.sub_sub_self hpoint.le,
        value, ← hplaces, neg_neg]
  · obtain ⟨places, hplaces⟩ := Int.eq_ofNat_of_zero_le (show 0 ≤ -d.exponent by omega)
    rw [hplaces, Int.toNat_natCast] at hpoint ⊢
    refine ⟨['0'], _, ⟨?_, by simp, .inl String.toList_ofList⟩, ?_⟩
    · exact List.forall_mem_append.mpr ⟨hzeros 1, List.forall_mem_append.mpr ⟨hzeros _, hds⟩⟩
    · have hzero : ∀ cs, ofDigits (['0'] ++ cs) = ofDigits cs := ofDigits_zeros_append 1
      rw [hzero, ofDigits_zeros_append, ofDigits_toDigits, List.length_append,
        List.length_replicate, Nat.sub_add_cancel (not_lt.mp hpoint), value, ← hplaces, neg_neg]

end Decimal

namespace Double

variable {x : Double} {s : Bool} {n m : Nat} {e k : Int}

/-- The intervals of numbers lie far from the ends of the range in which texts are read. -/
theorem interval_bounds {y : ℚ} (hx : x.unpack = .finite s m e) (hm : 0 < m)
    (h : (RoundingInterval.ofParts BinaryFormat.double m e).Contains y) :
    (10 : ℚ) ^ (-400 : Int) < y ∧ y < 10 ^ (399 : Int) := by
  obtain ⟨hcanonical, hbits, hfinite, -⟩ := BinaryFormat.bits_of_unpack hx
  obtain ⟨⟨hlow, hhigh⟩, -⟩ := (RoundingInterval.contains_ofParts hm).mp h
  have hhalf := (RoundingInterval.lowerHalf_bounds BinaryFormat.double m e).2
  have hunit : (0 : ℚ) < 2 ^ e := by positivity
  have hleast : -1074 ≤ e := hcanonical.least
  have hgreatest : e ≤ 972 := by
    have hinfinity : BinaryFormat.double.infinityBits = 2047 * 2 ^ 52 := rfl
    have hhidden : BinaryFormat.double.hiddenBit = 2 ^ 52 := rfl
    have hfirst : BinaryFormat.double.leastExponent = -1074 := rfl
    rw [hbits, hinfinity, hhidden, hfirst] at hfinite
    omega
  rw [le_div_iff₀ hunit] at hlow
  rw [div_le_iff₀ hunit] at hhigh
  constructor
  · have hm' : (1 : ℚ) ≤ m := by exact_mod_cast hm
    have hpow : (2 : ℚ) ^ 1075 < 10 ^ 400 := by
      have : 2 ^ 1075 < 10 ^ 400 := by decide +kernel
      exact_mod_cast this
    calc (10 : ℚ) ^ (-400 : Int) < 2 ^ (-1075 : Int) := by
          rw [zpow_neg, zpow_neg]
          exact inv_strictAnti₀ (by positivity) (by exact_mod_cast hpow)
      _ = 1 / 2 * 2 ^ (-1074 : Int) := by
          rw [show (-1075 : Int) = -1 + -1074 by rfl, zpow_add₀ two_ne_zero, zpow_neg_one, one_div]
      _ ≤ (m - RoundingInterval.lowerHalf BinaryFormat.double m e) * 2 ^ e :=
          mul_le_mul (by linarith) (zpow_le_zpow_right₀ one_le_two hleast) (by positivity)
            (by linarith)
      _ ≤ y := hlow
  · have hm' : (m : ℚ) + 1 ≤ 2 ^ 53 := by exact_mod_cast hcanonical.fits
    have hpow : (2 : ℚ) ^ 1025 < 10 ^ 399 := by
      have : 2 ^ 1025 < 10 ^ 399 := by decide +kernel
      exact_mod_cast this
    calc y ≤ (m + 1 / 2) * 2 ^ e := hhigh
      _ ≤ 2 ^ 53 * 2 ^ (972 : Int) :=
          mul_le_mul (by linarith) (zpow_le_zpow_right₀ one_le_two hgreatest) (by positivity)
            (by positivity)
      _ = 2 ^ 1025 := by rw [show (972 : Int) = (972 : Nat) by rfl, zpow_natCast, ← pow_add]
      _ < 10 ^ 399 := hpow
      _ = 10 ^ (399 : Int) := (zpow_natCast 10 399).symm

/-- A number between the ends of an interval is neither too large nor too small to be read. -/
theorem top_bounds (hx : x.unpack = .finite s m e) (hm : 0 < m)
    (h : (RoundingInterval.ofParts BinaryFormat.double m e).Contains (n * 10 ^ k)) :
    0 < n ∧ -400 ≤ k + Decimal.digitCount n ∧ k + Decimal.digitCount n ≤ 400 := by
  have hn : 0 < n := Nat.pos_of_ne_zero fun hzero => by
    simpa [hzero] using RoundingInterval.contains_pos hm h
  obtain ⟨hsmall, hlarge⟩ := interval_bounds hx hm h
  have hbelow : (n : ℚ) * 10 ^ k < 10 ^ (k + Decimal.digitCount n) := by
    have hcount : (n : ℚ) < 10 ^ Decimal.digitCount n := by
      exact_mod_cast Decimal.lt_pow_digitCount n
    rw [add_comm, zpow_add₀ (by norm_num), zpow_natCast]
    gcongr
  have habove : (10 : ℚ) ^ (k + Decimal.digitCount n - 1) ≤ n * 10 ^ k := by
    have hcount : (10 : ℚ) ^ (Decimal.digitCount n - 1) ≤ n := by
      exact_mod_cast Decimal.pow_le_of_digitCount hn
    have hpos := Decimal.digitCount_pos n
    rw [show k + Decimal.digitCount n - 1 = (Decimal.digitCount n - 1 : Nat) + k by omega,
      zpow_add₀ (by norm_num), zpow_natCast]
    gcongr
  have hlow := (zpow_lt_zpow_iff_right₀ (show (1 : ℚ) < 10 by norm_num)).mp (hsmall.trans hbelow)
  have hhigh := (zpow_lt_zpow_iff_right₀ (show (1 : ℚ) < 10 by norm_num)).mp
    (habove.trans_lt hlarge)
  exact ⟨hn, by omega, by omega⟩

/-- A decimal number in the interval of a number is rounded to this number. -/
theorem toDouble_of_contains (hx : x.unpack = .finite s m e) (hm : 0 < m)
    (h : (RoundingInterval.ofParts BinaryFormat.double m e).Contains (n * 10 ^ k)) :
    Decimal.toDouble s n k = x := by
  obtain ⟨hn, hsmall, hlarge⟩ := top_bounds hx hm h
  rw [Decimal.toDouble]
  dsimp only
  rw [if_neg (by omega), if_neg (by omega)]
  refine ofRatio_of_contains hx hm (Decimal.powTen_pos k).2 ?_
  rwa [Nat.cast_mul, mul_div_assoc, Decimal.powTen_value]

theorem ofText?_of_digits {whole fraction : List Char} {t : String}
    (h : Decimal.Digits whole fraction t.toList) (s : Bool) :
    ofText? (if s then "-" ++ t else t) =
      some (Decimal.toDouble s (Decimal.ofDigits (whole ++ fraction)) (-(fraction.length : Int))) := by
  obtain ⟨c, rest, hcs, hc⟩ := h.head
  have hread := readSigned_of_digit s hc rest
  rw [← hcs, h.readUnsigned] at hread
  cases s with
  | false =>
      obtain ⟨hplus, hminus⟩ := ne_sign_of_digit hc
      exact (ofText?_of_ne_sign hcs hplus hminus).trans (hcs ▸ hread)
  | true => exact (ofText?_minus (by simp)).trans hread

/-- Every number is read back from its text. -/
theorem readsBack (x : Double) : x.ReadsBack := by
  intro hnan
  unfold toText toTextIn
  cases hx : x.unpack with
  | nan => simp [isNaN, hx] at hnan
  | infinite s =>
      rw [← infinity_of_unpack hx]
      cases s <;> rfl
  | finite s m e =>
      by_cases hm : m = 0
      · have hzero : Decimal.Digits ['0'] [] "0".toList :=
          ⟨by simp; rfl, List.cons_ne_nil _ _, .inr ⟨rfl, rfl⟩⟩
        simp only [if_pos hm]
        rw [hm] at hx
        exact (ofText?_of_digits hzero s).trans (congrArg some (ofRatio_zero hx))
      · have hpos := Nat.pos_of_ne_zero hm
        obtain ⟨d, hd, hcontains⟩ := Decimal.shortest_contains .up
          (BinaryFormat.bits_of_unpack hx).1 hpos
        obtain ⟨whole, fraction, hdigits, hvalue⟩ := d.toPositional_digits
        simp only [if_neg hm, hd]
        rw [ofText?_of_digits hdigits, toDouble_of_contains hx hpos (hvalue ▸ hcontains)]

end Double

end ObjectRuntime
