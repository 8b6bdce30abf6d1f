import ObjectRuntime.Boundary.Cell
import ObjectRuntime.Proofs.Sequencing
import ObjectRuntime.Proofs.Tensor.Blob
import ObjectRuntime.Proofs.Text.Utf8
set_option autoImplicit false

/-!
# Cells are read back

Every value has a cell, but for a text with a zero byte, and its cell is read as the value that went
in (`Cell.read_of_ofValue`).  A moved object is read only while it is in its slot.
-/

namespace ObjectRuntime

/-! ## Words -/

namespace CellContent

theorem toNat_ofNat_of_lt {n : Nat} (h : n < 2 ^ 64) : (UInt64.ofNat n).toNat = n := by
  rw [UInt64.toNat_ofNat', Nat.mod_eq_of_lt h]

/-- The low bits of a number with a sign. -/
theorem toNat_emod_lt (n : Int) (width : Nat) : (n % (2 ^ width : Nat)).toNat < 2 ^ width := by
  have hpos : (0 : Int) < (2 ^ width : Nat) := by positivity
  exact (Int.toNat_lt (Int.emod_nonneg n hpos.ne')).mpr (Int.emod_lt_of_pos n hpos)

theorem toI64_ofI64 (n : I64) : (ofI64 n).toI64 = n := by
  have hword : (ofI64 n).bits.toNat = (n.val % (2 ^ 64 : Nat)).toNat :=
    toNat_ofNat_of_lt (toNat_emod_lt n.val 64)
  rw [toI64, hword]
  exact Blob.Step.wrap_of_fits n.fits

theorem toBool_ofBool (b : Bool) : (ofBool b).toBool = b := by
  cases b <;> rfl

theorem toDataType_ofDataType (d : DataType) : (ofDataType d).toDataType = d := by
  have hcode := d.code.toNat_lt
  have hwidth := d.bits.toNat_lt
  have hlanes := d.lanes.toNat_lt
  have hword : (ofDataType d).bits.toNat =
      d.code.toNat + 256 * (d.bits.toNat + 256 * d.lanes.toNat) := toNat_ofNat_of_lt (by omega)
  rw [toDataType, hword]
  change _ = (⟨d.code, d.bits, d.lanes⟩ : DataType)
  rw [DataType.mk.injEq]
  refine ⟨UInt8.toNat_inj.mp ?_, UInt8.toNat_inj.mp ?_, UInt16.toNat_inj.mp ?_⟩
  · rw [UInt8.toNat_ofNat']
    omega
  · rw [UInt8.toNat_ofNat']
    omega
  · rw [UInt16.toNat_ofNat']
    omega

/-- Two halves of a word. -/
theorem halves {low high : Nat} (hlow : low < UInt32.size) (hhigh : high < UInt32.size) :
    low + UInt32.size * high < 2 ^ 64 := by
  unfold UInt32.size at hlow hhigh ⊢
  omega

theorem toDevice_ofDevice (d : RawDevice) : (ofDevice d).toDevice = d := by
  have hkind : d.kind.toNat < UInt32.size := d.kind.toNat_lt
  have hunit : (d.unit.val % UInt32.size).toNat < UInt32.size := toNat_emod_lt d.unit.val 32
  have hsize : UInt32.size = 2 ^ 32 := rfl
  have hword : (ofDevice d).bits.toNat =
      d.kind.toNat + UInt32.size * (d.unit.val % UInt32.size).toNat := by
    exact toNat_ofNat_of_lt (halves hkind hunit)
  rw [toDevice, hword, Nat.add_mul_div_left _ _ (by decide), Nat.div_eq_of_lt hkind, Nat.zero_add]
  change _ = (⟨d.kind, d.unit⟩ : RawDevice)
  rw [RawDevice.mk.injEq]
  refine ⟨UInt32.toNat_inj.mp ?_, Blob.Step.wrap_of_fits d.unit.fits⟩
  rw [UInt32.toNat_ofNat', ← hsize, Nat.add_mul_mod_self_left, Nat.mod_eq_of_lt hkind]

end CellContent

/-! ## Values -/

namespace Value

/-- The object that the value moves. -/
def moved? : Value → Option ObjId
  | .object .moved id => some id
  | _ => none

/-- The object that the value carries without moving it. -/
def passed? : Value → Option ObjId
  | .object .moved _ => none
  | .object _ id => some id
  | _ => none

/-- The value is a text that cannot be told from its end. -/
def HasZero (v : Value) : Prop := ∃ s, v = .text s ∧ 0 ∈ Utf8.encode s

theorem eq_of_moved? {v : Value} {id : ObjId} (h : v.moved? = some id) :
    v = .object .moved id := by
  cases v with
  | object tag id' => cases tag <;> simp_all [moved?]
  | _ => cases h

/-- A value moves its object or passes it. -/
theorem toList_moved?_append (v : Value) :
    v.moved?.toList ++ v.passed?.toList = v.object?.toList := by
  cases v with
  | object tag id => cases tag <;> rfl
  | _ => rfl

end Value

/-! ## Texts -/

theorem writeText_of_zero {s : String} (h : 0 ∈ Utf8.encode s) :
    writeText s = .error .embeddedNul := by
  simp [writeText, h]

theorem writeText_of_no_zero {s : String} (h : 0 ∉ Utf8.encode s) :
    writeText s = .ok (Utf8.encode s) := by
  simp [writeText, h]

/-- A text without zero bytes is read to its end. -/
theorem readText_encode {s : String} (h : 0 ∉ Utf8.encode s) : readText (Utf8.encode s) = .ok s := by
  have hall : untilZero (Utf8.encode s) = Utf8.encode s := by
    refine List.takeWhile_eq_self_iff.mpr fun b hb => ?_
    have hne : b ≠ 0 := fun heq => h (heq ▸ hb)
    exact decide_eq_true hne
  rw [readText, hall, Utf8.decode?_encode]

namespace Cell

variable {slot : Nat} {slots : List Ref} {v : Value} {c : Cell}

/-! ## Cells of values -/

theorem ofValue_of_hasZero (h : v.HasZero) : ofValue slot v = .error .embeddedNul := by
  obtain ⟨s, rfl, hs⟩ := h
  simp only [ofValue, writeText_of_zero hs]
  rfl

theorem exists_ofValue (slot : Nat) (h : ¬ v.HasZero) : ∃ c, ofValue slot v = .ok c := by
  cases v with
  | text s =>
      have hs : 0 ∉ Utf8.encode s := fun hs => h ⟨s, rfl, hs⟩
      simp only [ofValue, writeText_of_no_zero hs]
      exact ⟨_, rfl⟩
  | object tag id => cases tag <;> exact ⟨_, rfl⟩
  | _ => exact ⟨_, rfl⟩

theorem code_of_ofValue (hc : ofValue slot v = .ok c) : c.code = v.typeCode := by
  cases v with
  | text s =>
      by_cases hs : 0 ∈ Utf8.encode s
      · rw [ofValue_of_hasZero ⟨s, rfl, hs⟩] at hc
        cases hc
      · simp only [ofValue, writeText_of_no_zero hs] at hc
        cases hc
        rfl
  | object tag id =>
      cases tag
      all_goals
        cases hc
        rfl
  | _ =>
      cases hc
      rfl

/-- The cell of an object that is passed leads to the object. -/
theorem content_of_passed {id : ObjId} (hc : ofValue slot v = .ok c) (hid : c.content = .object id) :
    v.passed? = some id := by
  cases v with
  | object tag id' =>
      cases tag
      all_goals
        cases hc
        cases hid
      all_goals rfl
  | text s =>
      by_cases hs : 0 ∈ Utf8.encode s
      · rw [ofValue_of_hasZero ⟨s, rfl, hs⟩] at hc
        cases hc
      · simp only [ofValue, writeText_of_no_zero hs] at hc
        cases hc
        cases hid
  | _ =>
      cases hc
      cases hid

/-- What is in a slot is read from its cell. -/
theorem read_slot {r : Ref} (hr : slots[slot]? = some r) :
    read slots ⟨TypeCode.moved, .slot slot⟩ = .ok (.ofRef .moved r) := by
  have hjoin : slots[slot]?.join = r := by
    rw [hr]
    rfl
  cases r
  all_goals simp [read, hjoin, TypeCode.moved, TypeCode.int, TypeCode.uint, TypeCode.float,
    TypeCode.bool, TypeCode.null, TypeCode.dataType, TypeCode.device, TypeCode.handle,
    TypeCode.tensorHandle, TypeCode.object, TypeCode.module, TypeCode.function, TypeCode.tensor,
    Value.ofRef]

/-- What is read as an object that is not moved is the object in the cell. -/
theorem object_of_readObject {tag : ObjectTag} {content : CellContent} {id : ObjId}
    (htag : tag ≠ .moved) (hid : (readObject tag content).object? = some id) :
    content = .object id ∧ (readObject tag content).passed? = some id := by
  cases content with
  | object id' =>
      cases hid
      cases tag with
      | moved => exact absurd rfl htag
      | _ => exact ⟨rfl, rfl⟩
  | _ => cases hid

/-- An object that is read is the one in the cell, or the one in the slot to which it leads. -/
theorem object_of_read {id : ObjId} (h : c.read slots = .ok v) (hid : v.object? = some id) :
    (c.content = .object id ∧ v.passed? = some id) ∨
      ∃ slot, c.content = .slot slot ∧ slots[slot]? = some (some id) ∧ v = .object .moved id := by
  have hplain : ∀ {v' : Value}, v'.object? = none → (.ok v' : Except Error Value) ≠ .ok v := by
    intro v' hv' heq
    cases heq
    rw [hv'] at hid
    cases hid
  have hbranch : ∀ {p : Prop} [Decidable p] {x y z : Except Error Value},
      (if p then x else y) = z → x = z ∨ y = z := by
    intro p _ x y z heq
    by_cases hp : p
    · exact .inl (by rwa [if_pos hp] at heq)
    · exact .inr (by rwa [if_neg hp] at heq)
  unfold read at h
  -- numbers, truth values, nothing, data types, devices and addresses
  iterate 8
    rcases hbranch h with h | h
    · exact absurd h (hplain rfl)
  iterate 4
    rcases hbranch h with h | h
    · obtain rfl := Except.ok.inj h
      exact .inl (object_of_readObject (by decide) hid)
  rcases hbranch h with h | h
  · cases hcontent : c.content with
    | slot index =>
        cases hslot : slots[index]?.join with
        | none =>
            simp only [hcontent, hslot] at h
            exact absurd h (hplain rfl)
        | some id' =>
            simp only [hcontent, hslot] at h
            cases h
            cases hid
            exact .inr ⟨index, rfl, Option.join_eq_some_iff.mp hslot, rfl⟩
    | _ =>
        rw [hcontent] at h
        exact absurd h (hplain rfl)
  rcases hbranch h with h | h
  · cases hcontent : c.content with
    | text bytes =>
        cases htext : readText bytes with
        | error cause =>
            simp only [hcontent, htext] at h
            cases h
        | ok s =>
            simp only [hcontent, htext] at h
            exact absurd h (hplain rfl)
    | _ =>
        rw [hcontent] at h
        exact absurd h (hplain rfl)
  rcases hbranch h with h | h
  · cases hcontent : c.content with
    | _ =>
        rw [hcontent] at h
        exact absurd h (hplain rfl)
  · cases h

/-- The cell of a value is read as the value.  A moved object has to be in its slot. -/
theorem read_of_ofValue (hc : ofValue slot v = .ok c)
    (hslot : ∀ id, v.moved? = some id → slots[slot]? = some (some id)) :
    c.read slots = .ok v := by
  cases v with
  | text s =>
      by_cases hs : 0 ∈ Utf8.encode s
      · rw [ofValue_of_hasZero ⟨s, rfl, hs⟩] at hc
        cases hc
      · simp only [ofValue, writeText_of_no_zero hs] at hc
        cases hc
        have htext := readText_encode hs
        show Value.text <$> readText (Utf8.encode s) = _
        rw [htext]
        rfl
  | object tag id =>
      cases tag with
      | moved =>
          cases hc
          exact read_slot (hslot id rfl)
      | _ =>
          cases hc
          rfl
  | int n =>
      cases hc
      exact congrArg (Except.ok ∘ Value.int) (CellContent.toI64_ofI64 n)
  | bool b =>
      cases hc
      exact congrArg (Except.ok ∘ Value.bool) (CellContent.toBool_ofBool b)
  | dataType d =>
      cases hc
      exact congrArg (Except.ok ∘ Value.dataType) (CellContent.toDataType_ofDataType d)
  | device d =>
      cases hc
      exact congrArg (Except.ok ∘ Value.device) (CellContent.toDevice_ofDevice d)
  | _ =>
      cases hc
      rfl

end Cell

end ObjectRuntime
