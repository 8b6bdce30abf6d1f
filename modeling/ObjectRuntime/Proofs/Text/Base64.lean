import ObjectRuntime.Text.Base64
import Mathlib
set_option autoImplicit false

/-!
# Base 64 read back

The decoder accepts what the encoder writes, and gives back the bytes.
-/

namespace ObjectRuntime.Base64

/-- Every six-bit number has a character of its own, which is not the padding. -/
theorem decodeDigit?_encodeDigit :
    ∀ n < 64, decodeDigit? (encodeDigit n) = some n ∧ encodeDigit n ≠ '=' := by
  decide

theorem ofNat_of_eq {b : UInt8} {n : Nat} (h : n = b.toNat) : UInt8.ofNat n = b := by
  rw [h, UInt8.ofNat_toNat]

/-- A full group is read as three bytes. -/
theorem decodeChars_group {n : Nat} (hn : n < 2 ^ 24) (rest : List Char) :
    decodeChars (encodeDigit (n / 262144) :: encodeDigit (n / 4096 % 64) ::
        encodeDigit (n / 64 % 64) :: encodeDigit (n % 64) :: rest) =
      (decodeChars rest).map fun tail =>
        UInt8.ofNat (n / 65536) :: UInt8.ofNat (n / 256 % 256) :: UInt8.ofNat (n % 256) :: tail := by
  obtain ⟨ha, -⟩ := decodeDigit?_encodeDigit (n / 262144) (by omega)
  obtain ⟨hb, -⟩ := decodeDigit?_encodeDigit (n / 4096 % 64) (by omega)
  obtain ⟨hc, -⟩ := decodeDigit?_encodeDigit (n / 64 % 64) (by omega)
  obtain ⟨hd, hpad⟩ := decodeDigit?_encodeDigit (n % 64) (by omega)
  have hnumber : ((n / 262144 * 64 + n / 4096 % 64) * 64 + n / 64 % 64) * 64 + n % 64 = n := by
    omega
  rw [decodeChars]
  · simp only [ha, hb, hc, hd, hnumber, bind, Option.bind]
    cases decodeChars rest <;> rfl
  · exact fun _ heq => absurd heq hpad
  · exact fun heq => absurd heq hpad

/-- The bytes that were written are read back. -/
theorem decodeChars_encodeChars (bytes : Bytes) :
    decodeChars (encodeChars bytes) = some bytes := by
  induction bytes using encodeChars.induct with
  | case1 => rfl
  | case2 a =>
      have ha := a.toNat_lt
      obtain ⟨hhigh, -⟩ := decodeDigit?_encodeDigit (a.toNat * 16 / 64) (by omega)
      obtain ⟨hlow, -⟩ := decodeDigit?_encodeDigit (a.toNat * 16 % 64) (by omega)
      have hnumber : a.toNat * 16 / 64 * 64 + a.toNat * 16 % 64 = a.toNat * 16 := by omega
      simp [encodeChars, decodeChars, hhigh, hlow, hnumber]
  | case3 a b =>
      have ha := a.toNat_lt
      have hb := b.toNat_lt
      let n := (a.toNat * 256 + b.toNat) * 4
      obtain ⟨hhigh, -⟩ := decodeDigit?_encodeDigit (n / 4096) (by omega)
      obtain ⟨hmiddle, -⟩ := decodeDigit?_encodeDigit (n / 64 % 64) (by omega)
      obtain ⟨hlow, hpad⟩ := decodeDigit?_encodeDigit (n % 64) (by omega)
      have hnumber : (n / 4096 * 64 + n / 64 % 64) * 64 + n % 64 = n := by omega
      rw [encodeChars, decodeChars]
      · simp only [n] at *
        simp only [hhigh, hmiddle, hlow, hnumber, bind, Option.bind]
        rw [if_pos (by omega), ofNat_of_eq (b := a) (by omega), ofNat_of_eq (b := b) (by omega)]
      · exact hpad
  | case4 a b c rest ih =>
      have ha := a.toNat_lt
      have hb := b.toNat_lt
      have hc := c.toNat_lt
      rw [encodeChars, decodeChars_group (by omega), ih, Option.map_some, ofNat_of_eq (b := a) (by omega), ofNat_of_eq (b := b) (by omega),
        ofNat_of_eq (b := c) (by omega)]

theorem decode?_encode (bytes : Bytes) : decode? (encode bytes) = some bytes := by
  rw [decode?, encode, String.toList_ofList, decodeChars_encodeChars]

end ObjectRuntime.Base64
