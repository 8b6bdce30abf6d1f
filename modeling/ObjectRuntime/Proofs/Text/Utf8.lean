import ObjectRuntime.Text.Utf8
set_option autoImplicit false

/-!
# Texts as bytes

A text is read back from its bytes.
-/

namespace ObjectRuntime

/-- The bytes from a position on are listed behind those that have been listed. -/
theorem ByteArray.toList_loop (bs : ByteArray) (i : Nat) (listed : Bytes) :
    ByteArray.toList.loop bs i listed = listed.reverse ++ bs.data.toList.drop i := by
  fun_induction ByteArray.toList.loop bs i listed with
  | case1 i listed h ih =>
      have hdrop : bs.data.toList.drop i = bs.get! i :: bs.data.toList.drop (i + 1) := by
        rw [List.drop_eq_getElem_cons (by simpa using h)]
        congr 1
        simp [ByteArray.get!, getElem!_pos, h]
      rw [ih, hdrop, List.reverse_cons, List.append_assoc]
      rfl
  | case2 i listed h =>
      rw [List.drop_eq_nil_of_le (by simpa using h), List.append_nil]

theorem ByteArray.toList_eq (bs : ByteArray) : bs.toList = bs.data.toList := by
  rw [ByteArray.toList, ByteArray.toList_loop]
  rfl

/-- A text is read back from its bytes. -/
theorem Utf8.decode?_encode (s : String) : Utf8.decode? (Utf8.encode s) = some s := by
  have hbytes : (⟨(Utf8.encode s).toArray⟩ : ByteArray) = s.toByteArray := by
    rw [Utf8.encode, String.toUTF8, ByteArray.toList_eq]
  rw [Utf8.decode?, hbytes, String.fromUTF8?, dif_pos s.isValidUTF8]
  rfl

end ObjectRuntime
