import ObjectRuntime.Number.Decimal
import ObjectRuntime.Proofs.Lists
import Mathlib.Tactic.Common
import Mathlib.Tactic.IntervalCases
set_option autoImplicit false

/-!
# Numbers read back from their texts

A machine integer is read back from its decimal text.  A text that is an integer may be read as a
floating point number too; the two readings agree but for the sign of zero.  The difference of two
floating point numbers is a zero if they are the same finite number, and its magnitude does not depend
on which of them is subtracted.
-/

namespace ObjectRuntime

namespace IntKind

variable {k : IntKind} {negative : Bool} {acc m : Int} {cs : List Char} {n d : Nat}

/-! ## Digits -/

theorem digit?_digitChar (h : d < 10) : digit? d.digitChar = some d := by
  interval_cases d <;> rfl

/-- The number with the sign put in front. -/
def signed (negative : Bool) (n : Nat) : Int := if negative then -(n : Int) else n

theorem fits_signed_of_le {n' : Nat} (h : k.Fits (signed negative n)) (hle : n' ≤ n) :
    k.Fits (signed negative n') := by
  have hmin := k.min_nonpos
  have hmax := k.max_nonneg
  unfold Fits signed at *
  split at h <;> simp_all <;> omega

theorem appendDigit_signed (negative : Bool) (n d : Nat) :
    appendDigit negative (signed negative n) d = signed negative (10 * n + d) := by
  unfold appendDigit signed
  split <;> push_cast <;> omega

/-- One more digit is read if the number with it is in range. -/
theorem parseDigits_append_digit (h : k.parseDigits negative acc cs = .ok m) (hd : d < 10)
    (hfits : k.Fits (appendDigit negative m d)) :
    k.parseDigits negative acc (cs ++ [d.digitChar]) = .ok (appendDigit negative m d) := by
  induction cs generalizing acc with
  | nil =>
      simp only [parseDigits, Except.ok.injEq] at h
      subst h
      simp [parseDigits, digit?_digitChar hd, hfits]
  | cons c cs ih =>
      simp only [parseDigits, List.cons_append] at h ⊢
      cases hc : digit? c with
      | none => simp [hc] at h
      | some e =>
          simp only [hc] at h ⊢
          split at h
          · rename_i hin
            rw [if_pos hin]
            exact ih h
          · cases h

/-- The digits of a number that is in range with its sign are read as this number. -/
theorem parseDigits_toDigits (h : k.Fits (signed negative n)) :
    k.parseDigits negative 0 (Nat.toDigits 10 n) = .ok (signed negative n) := by
  induction n using Nat.strongRecOn with
  | ind n ih =>
      rw [Nat.toDigits_eq_if (by decide)]
      split
      · rename_i hlt
        have happend := appendDigit_signed negative 0 n
        have hzero : signed negative 0 = 0 := by cases negative <;> rfl
        rw [hzero, Nat.mul_zero, Nat.zero_add] at happend
        simp [parseDigits, digit?_digitChar hlt, happend, h]
      · rename_i hge
        have hlast : n % 10 < 10 := Nat.mod_lt n (by decide)
        have hrest := ih (n / 10) (by omega) (fits_signed_of_le h (by omega))
        have happend := appendDigit_signed negative (n / 10) (n % 10)
        rw [Nat.div_add_mod] at happend
        rw [← happend] at h ⊢
        exact parseDigits_append_digit hrest hlast h

/-! ## Whole texts -/

/-- A digit is no sign. -/
theorem ne_sign_of_mem_toDigits {c : Char} (h : c ∈ Nat.toDigits 10 n) : c ≠ '+' ∧ c ≠ '-' := by
  have hdigit := Nat.isDigit_of_mem_toDigits (by decide) (by decide) h
  constructor <;> rintro rfl <;> simp at hdigit

theorem parseChars_of_ne_sign {c : Char} (hplus : c ≠ '+') (hminus : c ≠ '-') :
    k.parseChars (c :: cs) = k.parseDigits false 0 (c :: cs) := by
  unfold parseChars
  split <;> simp_all

theorem parseChars_minus (hsigned : k.isSigned = true) (hcs : cs ≠ []) :
    k.parseChars ('-' :: cs) = k.parseDigits true 0 cs := by
  unfold parseChars
  split
  case h_5 c rest _ _ _ heq =>
      cases heq
      rw [if_pos ⟨rfl, hsigned⟩]
  all_goals simp_all

theorem parseChars_toDigits (h : k.Fits n) :
    k.parseChars (Nat.toDigits 10 n) = .ok n := by
  have hread : k.parseDigits false 0 (Nat.toDigits 10 n) = .ok n := parseDigits_toDigits h
  cases hds : Nat.toDigits 10 n with
  | nil => exact absurd hds Nat.toDigits_ne_nil
  | cons c cs =>
      obtain ⟨hplus, hminus⟩ := ne_sign_of_mem_toDigits (n := n) (hds ▸ List.mem_cons_self)
      rw [parseChars_of_ne_sign hplus hminus, ← hds, hread]

/-- A type with a negative number has a sign. -/
theorem isSigned_of_fits_neg (h : k.Fits m) (hneg : m < 0) : k.isSigned = true := by
  cases k <;> first | rfl | exact absurd h.1 (by simp [min, isSigned]; omega)

theorem parseChars_toString (h : k.Fits m) : k.parseChars (toString m).toList = .ok m := by
  rw [Int.toString_eq_repr, Int.repr_eq_if]
  split
  · rename_i hpos
    have hm : ((m.toNat : Nat) : Int) = m := Int.toNat_of_nonneg hpos
    rw [Nat.toList_repr, parseChars_toDigits (hm.symm ▸ h), hm]
  · rename_i hneg
    have hm : signed true (-m).toNat = m := by
      simp only [signed, if_true]
      omega
    have hsigned := isSigned_of_fits_neg h (Int.not_le.mp hneg)
    have hfits : k.Fits (signed true (-m).toNat) := hm.symm ▸ h
    have hread := parseDigits_toDigits hfits
    rw [hm] at hread
    rw [String.toList_append, Nat.toList_repr]
    exact (parseChars_minus hsigned Nat.toDigits_ne_nil).trans hread

theorem parse_eq_ok {s : String} {n : MachineInt k} :
    k.parse s = .ok n ↔ k.parseChars s.toList = .ok n.val := by
  unfold parse
  split
  · rename_i m hm
    constructor
    · intro h
      cases h
      exact hm
    · intro h
      exact congrArg Except.ok (MachineInt.ext_val (Except.ok.inj (hm.symm.trans h)))
  · rename_i cause hcause
    simp [hcause]

/-- A machine integer is read back from its text. -/
theorem parse_toString (n : MachineInt k) : k.parse (toString n.val) = .ok n :=
  parse_eq_ok.mpr (parseChars_toString n.fits)

end IntKind

/-! ## Floating point numbers -/

namespace Double

open IntKind (digit? signed)

variable {k : IntKind} {negative : Bool} {acc m : Int} {cs : List Char}

/-- What is read digit by digit is the number that the digits write. -/
theorem ofDigits_of_parseDigits {n₀ : Nat}
    (h : k.parseDigits negative (signed negative n₀) cs = .ok m) :
    (∀ c ∈ cs, (digit? c).isSome) ∧
      m = signed negative (cs.foldl (fun n c => n * 10 + (c.toNat - '0'.toNat)) n₀) := by
  induction cs generalizing n₀ with
  | nil =>
      simp only [IntKind.parseDigits, Except.ok.injEq] at h
      exact ⟨by simp, h.symm⟩
  | cons c cs ih =>
      simp only [IntKind.parseDigits] at h
      cases hc : digit? c with
      | none => simp [hc] at h
      | some d =>
          obtain rfl : c.toNat - '0'.toNat = d := by
            unfold digit? at hc
            split at hc
            · exact Option.some.inj hc
            · cases hc
          simp only [hc, IntKind.appendDigit_signed] at h
          split at h
          · obtain ⟨hdigits, hm⟩ := ih h
            refine ⟨?_, ?_⟩
            · intro c' hc'
              rcases List.mem_cons.mp hc' with rfl | hc'
              · simp [hc]
              · exact hdigits c' hc'
            · rw [hm, List.foldl_cons, Nat.mul_comm n₀ 10]
          · cases h

theorem spanDigits_of_digits (h : ∀ c ∈ cs, (digit? c).isSome) :
    Decimal.spanDigits cs = (cs, []) := by
  have hsplit : (cs ++ []).span (fun c => (digit? c).isSome) = (cs, []) := span_append h (by simp)
  rwa [List.append_nil] at hsplit

theorem readUnsigned_of_digits (h : ∀ c ∈ cs, (digit? c).isSome) (hne : cs ≠ []) :
    Decimal.readUnsigned cs = some (Decimal.ofDigits cs, 0) := by
  simp [Decimal.readUnsigned, spanDigits_of_digits h, hne]

/-- No name of a special number starts with a digit. -/
theorem lower_ne_of_digit {c : Char} (hc : (digit? c).isSome) (cs : List Char) :
    let lower := String.ofList ((c :: cs).map Char.toLower)
    lower ≠ "inf" ∧ lower ≠ "infinity" ∧ lower ≠ "nan" := by
  have hlower : c.toLower = c := by
    have hnine : c ≤ '9' := by
      unfold digit? at hc
      split at hc
      · rename_i hrange
        exact hrange.2
      · cases hc
    have hnine : c.val ≤ '9'.val := hnine
    unfold Char.toLower
    rw [dif_neg]
    rintro ⟨hA, -⟩
    exact absurd (UInt32.le_trans hA hnine) (by decide)
  have hhead : ∀ s : String, String.ofList ((c :: cs).map Char.toLower) = s →
      s.toList.head? = some c := by
    rintro s rfl
    simp [hlower]
  refine ⟨fun h => ?_, fun h => ?_, fun h => ?_⟩
  all_goals
    cases hhead _ h
    cases hc

theorem toDouble_of_lt (negative : Bool) {n : Nat} (h : n < 10 ^ 20) :
    Decimal.toDouble negative n 0 = Double.ofRatio negative n 1 := by
  have hcount : Decimal.digitCount n ≤ 20 :=
    (Nat.length_toDigits_le_iff (by decide) (by decide)).mpr h
  unfold Decimal.toDouble
  by_cases hn : n = 0
  · simp [hn]
  · have hsmall : ¬ (n = 0 ∨ (0 : Int) + Decimal.digitCount n < -400) := by omega
    have hlarge : ¬ ((0 : Int) + Decimal.digitCount n > 400) := by omega
    dsimp only
    rw [if_neg hsmall, if_neg hlarge]
    simp [Decimal.powTen]

/-- What stands behind the sign of a number. -/
def readSigned (negative : Bool) (cs : List Char) : Option Double :=
  let lower := String.ofList (cs.map Char.toLower)
  if lower = "inf" ∨ lower = "infinity" then some (Double.infinity negative)
  else if lower = "nan" then some (if negative then Double.nan.neg else Double.nan)
  else (Decimal.readUnsigned cs).map fun (digits, exponent) =>
    Decimal.toDouble negative digits exponent

theorem ofText?_minus {s : String} (hs : s.toList = '-' :: cs) :
    ofText? s = readSigned true cs := by
  simp only [ofText?, hs]
  rfl

theorem ofText?_plus {s : String} (hs : s.toList = '+' :: cs) :
    ofText? s = readSigned false cs := by
  simp only [ofText?, hs]
  rfl

theorem ofText?_of_ne_sign {s : String} {c : Char} (hs : s.toList = c :: cs) (hplus : c ≠ '+')
    (hminus : c ≠ '-') : ofText? s = readSigned false (c :: cs) := by
  simp only [ofText?, hs]
  split
  · rename_i hsign
    exact absurd (List.head_eq_of_cons_eq hsign) hminus
  · rename_i hsign
    exact absurd (List.head_eq_of_cons_eq hsign) hplus
  · rfl

theorem ne_sign_of_digit {c : Char} (hc : (digit? c).isSome) : c ≠ '+' ∧ c ≠ '-' := by
  constructor <;> rintro rfl <;> cases hc

/-- What starts with a digit is no name of a special number. -/
theorem readSigned_of_digit (negative : Bool) {c : Char} (hc : (digit? c).isSome) (cs : List Char) :
    readSigned negative (c :: cs) = (Decimal.readUnsigned (c :: cs)).map fun (digits, exponent) =>
      Decimal.toDouble negative digits exponent := by
  obtain ⟨hinf, hinfinity, hnan⟩ := lower_ne_of_digit hc cs
  have hnumber : ¬ (String.ofList ((c :: cs).map Char.toLower) = "inf" ∨
      String.ofList ((c :: cs).map Char.toLower) = "infinity") :=
    fun hor => hor.elim hinf hinfinity
  unfold readSigned
  dsimp only
  rw [if_neg hnumber, if_neg hnan]

/-- Digits are read as the nearest number. -/
theorem readSigned_of_digits (negative : Bool) (h : ∀ c ∈ cs, (digit? c).isSome) (hne : cs ≠ [])
    (hlt : Decimal.ofDigits cs < 10 ^ 20) :
    readSigned negative cs = some (Double.ofRatio negative (Decimal.ofDigits cs) 1) := by
  cases cs with
  | nil => exact absurd rfl hne
  | cons c cs =>
      rw [readSigned_of_digit negative (h c List.mem_cons_self), readUnsigned_of_digits h hne]
      exact congrArg some (toDouble_of_lt negative hlt)

/-- A text that is an integer is read as the nearest floating point number. -/
theorem ofText?_of_parse {s : String} {n : I64} (h : IntKind.i64.parse s = .ok n) :
    ∃ negative m, Double.ofText? s = some (Double.ofRatio negative m 1) ∧
      n.val = signed negative m := by
  have hread := IntKind.parse_eq_ok.mp h
  have hbound : ∀ {negative cs}, IntKind.i64.parseDigits negative 0 cs = .ok n.val →
      (∀ c ∈ cs, (digit? c).isSome) ∧ n.val = signed negative (Decimal.ofDigits cs) ∧
        Decimal.ofDigits cs < 10 ^ 20 := by
    intro negative cs hcs
    have hzero : signed negative 0 = 0 := by cases negative <;> rfl
    obtain ⟨hdigits, hval⟩ := ofDigits_of_parseDigits (hzero.symm ▸ hcs)
    have hval : n.val = signed negative (Decimal.ofDigits cs) := hval
    have hmin : (-9223372036854775808 : Int) ≤ n.val := n.fits.1
    have hmax : n.val ≤ 9223372036854775807 := n.fits.2
    refine ⟨hdigits, hval, ?_⟩
    rw [hval] at hmin hmax
    cases negative <;> simp only [signed] at hmin hmax <;> omega
  unfold IntKind.parseChars at hread
  split at hread
  · cases hread
  · cases hread
  · cases hread
  · rename_i rest hne hplus
    obtain ⟨hdigits, hval, hlt⟩ := hbound hread
    refine ⟨false, _, (ofText?_plus hplus).trans ?_, hval⟩
    exact readSigned_of_digits false hdigits (by rintro rfl; simp_all) hlt
  · rename_i c rest _ hminus hplus heq
    split at hread
    · rename_i hsign
      obtain ⟨hdigits, hval, hlt⟩ := hbound hread
      refine ⟨true, _, (ofText?_minus (hsign.1 ▸ heq)).trans ?_, hval⟩
      exact readSigned_of_digits true hdigits (by rintro rfl; simp_all) hlt
    · obtain ⟨hdigits, hval, hlt⟩ := hbound hread
      obtain ⟨hplus, hminus⟩ := ne_sign_of_digit (hdigits c List.mem_cons_self)
      refine ⟨false, _, (ofText?_of_ne_sign heq hplus hminus).trans ?_, hval⟩
      exact readSigned_of_digits false hdigits (List.cons_ne_nil c rest) hlt

/-! ## The two readings of a text -/

/-- The same number: zeros of both signs are, and so is all that is not a number. -/
def SameNumber (x y : Double) : Prop := x.eq y = true ∨ (x.isNaN = true ∧ y.isNaN = true)

/-- The number is read back from its text. -/
def ReadsBack (x : Double) : Prop := x.isNaN = false → Double.ofText? x.toText = some x

theorem SameNumber.refl (x : Double) : SameNumber x x := by
  cases hx : x.unpack with
  | nan => exact .inr (by simp [isNaN, hx])
  | infinite s => exact .inl (by simp [Double.eq, hx, Unpacked.eq])
  | finite s m e => exact .inl (by simp [Double.eq, hx, Unpacked.eq])

/-- The nearest number to an integer, but for the sign of zero. -/
theorem ofRatio_signed (negative : Bool) (m : Nat) :
    Double.ofRatio negative m 1 = Double.ofInt (signed negative m) ∨ (negative = true ∧ m = 0) := by
  have hscale : BinaryFormat.scaleRatio m 1 0 = (m, 1) := by simp [BinaryFormat.scaleRatio]
  cases negative with
  | false =>
      refine .inl ?_
      have hneg : ¬ ((m : Int) < 0) := by omega
      simp [Double.ofRatio, Double.ofInt, Double.pack, BinaryFormat.pack, signed, hneg, hscale]
  | true =>
      by_cases hm : m = 0
      · exact .inr ⟨rfl, hm⟩
      · refine .inl ?_
        have hpos : 0 < m := Nat.pos_of_ne_zero hm
        simp [Double.ofRatio, Double.ofInt, Double.pack, BinaryFormat.pack, signed, hpos, hscale]

theorem toText_of_isNaN {x : Double} (h : x.isNaN = true) : x.toText = "NaN" := by
  have hx : x.unpack = .nan := by simpa [isNaN] using h
  simp [Double.toText, Double.toTextIn, hx]

/-- A floating point number whose text is that of an integer is this integer. -/
theorem eq_ofInt_of_parse {x : Double} {n : I64} (hback : x.ReadsBack)
    (h : IntKind.i64.parse x.toText = .ok n) :
    x = Double.ofInt n.val ∨ (x = Double.ofRatio true 0 1 ∧ n.val = 0) := by
  cases hx : x.isNaN with
  | true =>
      have hrefused : IntKind.i64.parseChars "NaN".toList = .error .invalidDigit := by decide
      rw [toText_of_isNaN hx, IntKind.parse_eq_ok, hrefused] at h
      cases h
  | false =>
      obtain ⟨negative, m, hread, hn⟩ := ofText?_of_parse h
      rw [hback hx, Option.some.injEq] at hread
      rw [hn]
      rcases ofRatio_signed negative m with heq | ⟨rfl, rfl⟩
      · exact .inl (hread.trans heq)
      · exact .inr ⟨hread, rfl⟩

end Double

/-! ## Differences -/

namespace Unpacked

@[simp] theorem inUnits_not (negative : Bool) (m : Nat) (e unit : Int) :
    inUnits (!negative) m e unit = -inUnits negative m e unit := by
  cases negative <;> simp [inUnits]

/-- The difference of equal finite numbers is a zero. -/
theorem add_neg_of_eq {s t : Bool} {m n : Nat} {e g : Int}
    (h : (finite s m e).eq (finite t n g) = true) :
    (finite s m e).add (finite t n g).neg = finite (s && !t) 0 (min e g) := by
  have hsum : inUnits s m e (min e g) + -inUnits t n g (min e g) = 0 := by
    have heq : inUnits s m e (min e g) = inUnits t n g (min e g) := by simpa [Unpacked.eq] using h
    omega
  simp [neg, add, hsum]

/-- The magnitude of a difference is that of the opposite difference. -/
theorem abs_add_neg_comm (u v : Unpacked) : (u.add v.neg).abs = (v.add u.neg).abs := by
  cases u with
  | nan => cases v <;> rfl
  | infinite s =>
      cases v with
      | nan => rfl
      | infinite t => cases s <;> cases t <;> rfl
      | finite t n g => rfl
  | finite s m e =>
      cases v with
      | nan => rfl
      | infinite t => rfl
      | finite t n g =>
          simp only [neg, add, inUnits_not, min_comm g e]
          generalize inUnits s m e (min e g) = a, inUnits t n g (min e g) = b
          have hzero : b + -a = 0 ↔ a + -b = 0 := by omega
          have hdistance : (b + -a).natAbs = (a + -b).natAbs := by omega
          simp only [hzero, hdistance]
          split_ifs <;> rfl

end Unpacked

namespace Double

/-- The number is neither infinite nor not a number. -/
def IsFinite (x : Double) : Prop := ∃ s m e, x.unpack = .finite s m e

/-- A zero is packed as a zero of its sign. -/
theorem pack_zero (negative : Bool) (e : Int) :
    pack (.finite negative 0 e) = ⟨if negative then 0x8000000000000000 else 0⟩ := by
  have hzero : (BinaryFormat.scaleRatio 0 1 e).1 = 0 := by
    unfold BinaryFormat.scaleRatio
    split <;> simp
  have hratio : BinaryFormat.double.ofRatio (BinaryFormat.scaleRatio 0 1 e).1
      (BinaryFormat.scaleRatio 0 1 e).2 = 0 := by
    rw [BinaryFormat.ofRatio, if_pos hzero]
  simp only [pack, BinaryFormat.pack, hratio]
  cases negative <;> rfl

/-- The same finite numbers differ by a zero. -/
theorem sub_of_sameNumber {x y : Double} (h : x.SameNumber y) (hx : x.IsFinite) :
    x.sub y = ⟨0⟩ ∨ x.sub y = ⟨0x8000000000000000⟩ := by
  obtain ⟨s, m, e, hx⟩ := hx
  have heq : x.eq y = true := h.resolve_right fun hnan => by simp [isNaN, hx] at hnan
  rw [Double.eq, hx] at heq
  rw [sub, hx]
  cases hy : y.unpack with
  | nan => simp [hy, Unpacked.eq] at heq
  | infinite t => simp [hy, Unpacked.eq] at heq
  | finite t n g =>
      rw [hy] at heq
      rw [Unpacked.add_neg_of_eq heq, pack_zero]
      cases s && !t
      · exact .inl rfl
      · exact .inr rfl

/-- The same numbers that are not finite have no difference. -/
theorem sub_of_not_finite {x y : Double} (h : x.SameNumber y) (hx : ¬ x.IsFinite) :
    x.sub y = pack .nan := by
  cases hunpack : x.unpack with
  | nan => simp [sub, hunpack, Unpacked.add]
  | finite s m e => exact absurd ⟨s, m, e, hunpack⟩ hx
  | infinite s =>
      have heq : x.eq y = true := h.resolve_right fun hnan => by simp [isNaN, hunpack] at hnan
      rw [Double.eq, hunpack] at heq
      rw [sub, hunpack]
      cases hy : y.unpack with
      | nan => simp [hy, Unpacked.eq] at heq
      | finite t n g => simp [hy, Unpacked.eq] at heq
      | infinite t =>
          rw [hy] at heq
          obtain rfl : s = t := by simpa [Unpacked.eq] using heq
          simp [Unpacked.neg, Unpacked.add]

/-- What is packed is at most infinite. -/
theorem ofRatio_le (num den : Nat) :
    BinaryFormat.double.ofRatio num den ≤ BinaryFormat.double.infinityBits := by
  unfold BinaryFormat.ofRatio
  split_ifs
  · exact Nat.zero_le _
  · exact Nat.min_le_right _ _

/-- The sign of what is packed does not count for the magnitude. -/
theorem abs_withSign (negative : Bool) {m : Nat} (hm : m ≤ BinaryFormat.double.infinityBits) :
    (Double.mk (UInt64.ofNat (BinaryFormat.double.withSign negative m))).abs =
      (Double.mk (UInt64.ofNat m)).abs := by
  cases negative with
  | false => rfl
  | true =>
      have hinfinity : BinaryFormat.double.infinityBits < 2 ^ 63 := by decide
      have hsign : BinaryFormat.double.signBit = 2 ^ 63 := by decide
      have hmod : (2 ^ 63 + m) % 2 ^ 63 = m % 2 ^ 63 := Nat.add_mod_left _ _
      have hunpack : (BinaryFormat.double.unpack (2 ^ 63 + m)).abs =
          (BinaryFormat.double.unpack m).abs := by
        simp only [BinaryFormat.unpack, hsign, hmod]
        split_ifs <;> rfl
      simp only [abs, unpack, BinaryFormat.withSign, if_true, hsign,
        UInt64.toNat_ofNat_of_lt' (show 2 ^ 63 + m < 2 ^ 64 by omega),
        UInt64.toNat_ofNat_of_lt' (show m < 2 ^ 64 by omega), hunpack]

/-- A number is packed with its magnitude. -/
theorem abs_pack (u : Unpacked) : (pack u).abs = (pack u.abs).abs := by
  cases u with
  | nan => rfl
  | infinite s =>
      simp only [pack, BinaryFormat.pack, Unpacked.abs]
      rw [abs_withSign s (Nat.le_refl _), abs_withSign false (Nat.le_refl _)]
  | finite s m e =>
      simp only [pack, BinaryFormat.pack, Unpacked.abs]
      rw [abs_withSign s (ofRatio_le _ _), abs_withSign false (ofRatio_le _ _)]

/-- The distance of two numbers is the same in both directions. -/
theorem abs_sub_comm (x y : Double) : (x.sub y).abs = (y.sub x).abs := by
  rw [sub, sub, abs_pack, Unpacked.abs_add_neg_comm, ← abs_pack]

end Double

end ObjectRuntime
