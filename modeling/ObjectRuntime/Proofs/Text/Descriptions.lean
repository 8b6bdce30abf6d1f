import ObjectRuntime.DataType
import ObjectRuntime.Proofs.Sequencing
import ObjectRuntime.Proofs.Text.Numbers
import ObjectRuntime.Reflection.Load
import ObjectRuntime.Reflection.Save
set_option autoImplicit false

/-!
# Data types, devices and shapes read back from their texts

Each of the three is written without ambiguity: what writes its parts never contains the character
that ends the part.  A data type needs a kind with a name and at least one lane.
-/

namespace ObjectRuntime

/-! ## Data types -/

namespace DataType

variable {d : DataType}

/-- The kind has a name, and there is at least one lane. -/
def Nameable (d : DataType) : Prop := d.code ≤ 4 ∧ 1 ≤ d.lanes

instance (d : DataType) : Decidable d.Nameable := inferInstanceAs (Decidable (_ ∧ _))

/-- The codes of the kinds that have a name. -/
theorem code_cases (h : d.code ≤ 4) :
    d.code = intCode ∨ d.code = uintCode ∨ d.code = floatCode ∨ d.code = handleCode ∨
      d.code = bfloatCode := by
  have hle : d.code.toNat ≤ 4 := UInt8.le_iff_toNat_le.mp h
  have hcode : ∀ {n : UInt8}, d.code.toNat = n.toNat → d.code = n := UInt8.toNat_inj.mp
  have hcases : d.code.toNat = 0 ∨ d.code.toNat = 1 ∨ d.code.toNat = 2 ∨ d.code.toNat = 3 ∨
      d.code.toNat = 4 := by omega
  rcases hcases with h | h | h | h | h
  · exact .inl (hcode h)
  · exact .inr (.inl (hcode h))
  · exact .inr (.inr (.inl (hcode h)))
  · exact .inr (.inr (.inr (.inl (hcode h))))
  · exact .inr (.inr (.inr (.inr (hcode h))))

/-- The name of a kind is made of letters, among them no `x`, and tells the kind. -/
structure NamesKind (name : List Char) (code : UInt8) : Prop where
  letters : ∀ c ∈ name, CharClass.isNumeric c = false ∧ c ≠ 'x'
  kind : kindCode? (String.ofList name) = some code

/-- The same as a computation. -/
theorem NamesKind.of_all {name : List Char} {code : UInt8}
    (hletters : name.all (fun c => !CharClass.isNumeric c && c != 'x') = true)
    (hkind : kindCode? (String.ofList name) = some code) : NamesKind name code where
  letters c hc := by simpa using List.all_eq_true.mp hletters c hc
  kind := hkind

theorem namesKind (h : d.code ≤ 4) : NamesKind (kindName d.code).toList d.code := by
  rcases code_cases h with hcode | hcode | hcode | hcode | hcode
  all_goals
    rw [hcode]
    exact .of_all (by decide) (by decide)

/-- A digit has a numeric value and is no `x`. -/
theorem isNumeric_of_isDigit {c : Char} (h : c.isDigit = true) :
    CharClass.isNumeric c = true ∧ c ≠ 'x' := by
  constructor
  · obtain ⟨hlow, hhigh⟩ := Char.isDigit_iff_toNat.mp h
    refine List.any_eq_true.mpr ⟨(0x30, 0x39), List.Mem.head _, ?_⟩
    simpa using ⟨hlow, hhigh⟩
  · rintro rfl
    simp at h

theorem isNumeric_of_mem_toDigits {c : Char} {n : Nat} (h : c ∈ Nat.toDigits 10 n) :
    CharClass.isNumeric c = true ∧ c ≠ 'x' :=
  isNumeric_of_isDigit (Nat.isDigit_of_mem_toDigits (by decide) (by decide) h)

theorem parseNumber_toDigits {k : IntKind} {n : Nat} (h : k.Fits n) :
    parseNumber k (Nat.toDigits 10 n) = .ok n := by
  simp [parseNumber, IntKind.parseChars_toDigits h]

/-- The text of the lanes behind the bits. -/
def lanesText (lanes : UInt16) : List Char :=
  if lanes > 1 then 'x' :: Nat.toDigits 10 lanes.toNat else []

/-- The lanes are split off; a single one is not written. -/
theorem splitLanes_append {typ : List Char} {lanes : UInt16} (htyp : ∀ c ∈ typ, c ≠ 'x')
    (hlanes : 1 ≤ lanes) :
    (∃ text, splitLanes (typ ++ lanesText lanes) = (typ, some text) ∧
      parseNumber .u16 text = .ok lanes.toNat) ∨
    (splitLanes (typ ++ lanesText lanes) = (typ, none) ∧ lanes = 1) := by
  have htyp : ∀ c ∈ typ, (c != 'x') = true := fun c hc => bne_iff_ne.mpr (htyp c hc)
  by_cases hmany : lanes > 1
  · have hfits : IntKind.u16.Fits lanes.toNat := by
      have hlt := lanes.toNat_lt
      constructor
      · exact Int.natCast_nonneg _
      · show (lanes.toNat : Int) ≤ 65535
        omega
    have hdigits : ∀ c ∈ Nat.toDigits 10 lanes.toNat, (c != 'x') = true :=
      fun c hc => bne_iff_ne.mpr (isNumeric_of_mem_toDigits hc).2
    refine .inl ⟨Nat.toDigits 10 lanes.toNat, ?_, parseNumber_toDigits hfits⟩
    rw [splitLanes, lanesText, if_pos hmany, span_append htyp (by simp)]
    dsimp only
    rw [List.takeWhile_eq_self_iff.mpr hdigits]
  · refine .inr ⟨?_, UInt16.le_antisymm (UInt16.not_lt.mp hmany) hlanes⟩
    rw [splitLanes, lanesText, if_neg hmany, span_append htyp (by simp)]

/-- A kind, the bits and the lanes are read as a data type. -/
theorem parseChars_append {name : List Char} {code : UInt8} (hname : NamesKind name code)
    (bits : UInt8) {lanes : UInt16} (hlanes : 1 ≤ lanes) :
    parseChars (name ++ Nat.toDigits 10 bits.toNat ++ lanesText lanes) =
      .ok ⟨code, bits, lanes⟩ := by
  have htyp : ∀ c ∈ name ++ Nat.toDigits 10 bits.toNat, c ≠ 'x' := by
    intro c hc
    rcases List.mem_append.mp hc with hc | hc
    · exact (hname.letters c hc).2
    · exact (isNumeric_of_mem_toDigits hc).2
  have hfits : IntKind.u8.Fits bits.toNat := by
    have hlt := bits.toNat_lt
    constructor
    · exact Int.natCast_nonneg _
    · show (bits.toNat : Int) ≤ 255
      omega
  have hspan : (name ++ Nat.toDigits 10 bits.toNat).span (fun c => !CharClass.isNumeric c) =
      (name, Nat.toDigits 10 bits.toNat) := by
    refine span_append (fun c hc => by simp [(hname.letters c hc).1]) (fun c hc => ?_)
    simp [(isNumeric_of_mem_toDigits (List.mem_of_mem_head? hc)).1]
  unfold parseChars
  rcases splitLanes_append htyp hlanes with ⟨text, hsplit, hread⟩ | ⟨hsplit, rfl⟩
  · rw [hsplit]
    dsimp only
    rw [hspan, hread]
    simp [Nat.toDigits_ne_nil, parseNumber_toDigits hfits, hname.kind, bind, Except.bind]
  · rw [hsplit]
    dsimp only
    rw [hspan]
    simp [Nat.toDigits_ne_nil, parseNumber_toDigits hfits, hname.kind, bind, Except.bind]

theorem toList_toText (h : ¬ (d.isBool && d.lanes == 1) = true) :
    d.toText.toList =
      (kindName d.code).toList ++ Nat.toDigits 10 d.bits.toNat ++ lanesText d.lanes := by
  unfold toText lanesText
  rw [if_neg h]
  split <;> simp

/-- A data type that can be named is read back from its text. -/
theorem parse_toText (h : d.Nameable) : parse d.toText = .ok d := by
  obtain ⟨hcode, hlanes⟩ := h
  by_cases hbool : (d.isBool && d.lanes == 1) = true
  · have hd : d = bool := by
      simp only [isBool, Bool.and_eq_true, beq_iff_eq] at hbool
      obtain ⟨⟨hkind, hbits⟩, hone⟩ := hbool
      cases d
      simp_all [bool, uint]
    rw [hd]
    decide
  · have hchars := toList_toText hbool
    have hdigits : Nat.toDigits 10 d.bits.toNat ≠ [] := Nat.toDigits_ne_nil
    have hname : d.toText ≠ "bool" ∧ d.toText ≠ "" := by
      constructor <;> intro htext <;> rw [htext] at hchars
      · rcases code_cases hcode with hkind | hkind | hkind | hkind | hkind
        all_goals
          rw [hkind] at hchars
          cases hchars
      · simp_all
    rw [parse, if_neg hname.1, if_neg hname.2, hchars]
    exact parseChars_append (namesKind hcode) d.bits hlanes

end DataType

/-! ## Devices -/

namespace Device

/-- The name of a kind tells the kind and has no colon. -/
theorem ofName?_name (kind : DeviceKind) :
    DeviceKind.ofName? kind.name = some kind ∧ ∀ c ∈ kind.name.toList, (c != ':') = true := by
  rw [← List.all_eq_true]
  cases kind <;> decide

/-- A device is read back from its text. -/
theorem parse_toText (d : Device) : parse d.toText = .ok d := by
  obtain ⟨hname, hcolon⟩ := ofName?_name d.kind
  have hunit : IntKind.usize.parse d.unit.val.repr = .ok d.unit := IntKind.parse_toString d.unit
  have hchars : d.toText.toList = d.kind.name.toList ++ ':' :: (toString d.unit.val).toList := by
    simp [toText, toString]
  have hspan : (d.kind.name.toList ++ ':' :: (toString d.unit.val).toList).span (· != ':') =
      (d.kind.name.toList, ':' :: (toString d.unit.val).toList) := span_append hcolon (by simp)
  unfold parse
  rw [hchars, hspan]
  simp [parseKind, hname, hunit, bind, Except.bind]

/-- The code of a kind tells the kind. -/
theorem ofCode?_inv {code : UInt32} {kind : DeviceKind} (h : DeviceKind.ofCode? code = some kind) :
    kind.code = code := by
  simpa using List.find?_some h

/-- A unit that is extended by its sign keeps its low bits. -/
theorem wrap_wrap (unit : MachineInt .i32) :
    MachineInt.wrap .i32 (MachineInt.wrap .usize unit.val).val = unit := by
  obtain ⟨hmin, hmax⟩ := unit.fits
  have hmin : -2147483648 ≤ unit.val := hmin
  have hmax : unit.val ≤ 2147483647 := hmax
  apply MachineInt.ext_val
  simp only [MachineInt.wrap, IntKind.wrap, IntKind.isSigned, IntKind.size, IntKind.width, if_true,
    Bool.false_eq_true, if_false, Int.bmod_def]
  norm_num
  omega

/-- A device that crossed a boundary crosses it as it came. -/
theorem toRaw_of_ofRaw {raw : RawDevice} {d : Device} (h : ofRaw raw = .ok d) : d.toRaw = raw := by
  unfold ofRaw at h
  cases hkind : DeviceKind.ofCode? raw.kind with
  | none => simp [hkind] at h
  | some kind =>
      simp only [hkind, Except.ok.injEq] at h
      subst h
      simp [toRaw, ofCode?_inv hkind, wrap_wrap]

/-! ### What arrives -/

variable {d e : Device}

/-- Thirty-two bits with a sign stand for the unit. -/
def IsNarrow (d : Device) : Prop := d.unit.val < 2 ^ 31 ∨ 2 ^ 64 - 2 ^ 31 ≤ d.unit.val

instance (d : Device) : Decidable d.IsNarrow := inferInstanceAs (Decidable (_ ∨ _))

/-- The device that arrives where a device is sent. -/
def narrowed (d : Device) : Device := ⟨d.kind, MachineInt.wrap .usize d.toRaw.unit.val⟩

/-- A device that is sent always arrives as some device. -/
theorem ofRaw_toRaw_eq (d : Device) : ofRaw d.toRaw = .ok d.narrowed := by
  obtain ⟨kind, unit⟩ := d
  have hkind : DeviceKind.ofCode? kind.code = some kind := by cases kind <;> decide
  simp [ofRaw, toRaw, narrowed, hkind]

/-- What arrives is sent on as it came. -/
theorem toRaw_narrowed (d : Device) : d.narrowed.toRaw = d.toRaw := toRaw_of_ofRaw d.ofRaw_toRaw_eq

theorem narrowed_eq_iff : d.narrowed = d ↔ d.IsNarrow := by
  obtain ⟨kind, unit⟩ := d
  obtain ⟨hmin, hmax⟩ := unit.fits
  have hmin : 0 ≤ unit.val := hmin
  have hmax : unit.val ≤ 18446744073709551615 := hmax
  have hunit : (MachineInt.wrap .usize (MachineInt.wrap .i32 unit.val).val).val = unit.val ↔
      unit.val < 2 ^ 31 ∨ 2 ^ 64 - 2 ^ 31 ≤ unit.val := by
    simp only [MachineInt.wrap, IntKind.wrap, IntKind.isSigned, IntKind.size, IntKind.width,
      if_true, Bool.false_eq_true, if_false, Int.bmod_def]
    norm_num
    omega
  constructor
  · intro h
    exact hunit.mp (congrArg (fun d : Device => d.unit.val) h)
  · intro h
    exact congrArg (Device.mk kind) (MachineInt.ext_val (hunit.mpr h))

/-- Two devices are the same on the way if their units have the same low bits. -/
theorem toRaw_eq_iff :
    d.toRaw = e.toRaw ↔ d.kind = e.kind ∧ d.unit.val % 2 ^ 32 = e.unit.val % 2 ^ 32 := by
  have hkind : d.kind.code = e.kind.code ↔ d.kind = e.kind := by
    cases d.kind <;> cases e.kind <;> decide
  have hunit : MachineInt.wrap .i32 d.unit.val = MachineInt.wrap .i32 e.unit.val ↔
      d.unit.val % 2 ^ 32 = e.unit.val % 2 ^ 32 := by
    have hwrap : ∀ n : Int, (MachineInt.wrap .i32 n).val = Int.bmod n (2 ^ 32) := fun n => rfl
    have hlow : ∀ n : Int, Int.bmod n (2 ^ 32) % 2 ^ 32 = n % 2 ^ 32 :=
      fun n => by exact_mod_cast Int.bmod_emod
    constructor
    · intro h
      have hval := congrArg MachineInt.val h
      rw [hwrap, hwrap] at hval
      rw [← hlow d.unit.val, hval, hlow]
    · intro h
      apply MachineInt.ext_val
      rw [hwrap, hwrap, Int.bmod_def, Int.bmod_def]
      simp only [Nat.cast_pow, Nat.cast_ofNat, h]
  rw [toRaw, toRaw, RawDevice.mk.injEq, hkind, hunit]

end Device

/-! ## Shapes -/

namespace Loading

variable {cs part : List Char} {dims : List Int} {n : Int}

theorem trim_of_ends (hhead : ∀ c ∈ cs.head?, CharClass.isBlank c = false)
    (hlast : ∀ c ∈ cs.getLast?, CharClass.isBlank c = false) : trim cs = cs := by
  have hkeep : ∀ {cs : List Char}, (∀ c ∈ cs.head?, CharClass.isBlank c = false) →
      cs.dropWhile CharClass.isBlank = cs := by
    intro cs h
    cases cs with
    | nil => rfl
    | cons c cs => simp [h c rfl]
  rw [trim, hkeep hhead, hkeep (by simpa using hlast), List.reverse_reverse]

theorem splitCommas_of_notMem (h : ',' ∉ part) : splitCommas part = [part] := by
  induction part with
  | nil => rfl
  | cons c part ih =>
      rw [List.mem_cons, not_or] at h
      simp [splitCommas, ih h.2, Ne.symm h.1]

theorem splitCommas_ne_nil (cs : List Char) : splitCommas cs ≠ [] := by
  cases cs with
  | nil => simp [splitCommas]
  | cons c cs =>
      rw [splitCommas]
      split
      · simp
      · split <;> simp

theorem splitCommas_append (h : ',' ∉ part) :
    splitCommas (part ++ ',' :: cs) = part :: splitCommas cs := by
  induction part with
  | nil =>
      obtain ⟨head, tail, hcs⟩ := List.exists_cons_of_ne_nil (splitCommas_ne_nil cs)
      simp [splitCommas, hcs]
  | cons c part ih =>
      rw [List.mem_cons, not_or] at h
      simp [splitCommas, ih h.2, Ne.symm h.1]

/-- The characters in the text of a number are digits or a minus. -/
theorem mem_toString {c : Char} (h : c ∈ (toString n).toList) :
    c = '-' ∨ c.isDigit = true := by
  rw [Int.toString_eq_repr, Int.repr_eq_if] at h
  split at h
  · rw [Nat.toList_repr] at h
    exact .inr (Nat.isDigit_of_mem_toDigits (by decide) (by decide) h)
  · rw [String.toList_append, Nat.toList_repr] at h
    rcases List.mem_append.mp h with h | h
    · exact .inl (by simpa using h)
    · exact .inr (Nat.isDigit_of_mem_toDigits (by decide) (by decide) h)

theorem not_isBlank_of_isDigit {c : Char} (h : c.isDigit = true) :
    CharClass.isBlank c = false := by
  obtain ⟨hlow, hhigh⟩ := Char.isDigit_iff_toNat.mp h
  have hlow : 48 ≤ c.toNat := hlow
  have hhigh : c.toNat ≤ 57 := hhigh
  simp only [CharClass.isBlank, CharClass.inRanges, CharClass.blankRanges, List.any_cons,
    List.any_nil, Bool.or_false, Bool.or_eq_false_iff, Bool.and_eq_false_iff, decide_eq_false_iff_not]
  omega

/-- The text of a number has no blank and no comma. -/
theorem plain_of_mem_toString {c : Char} (h : c ∈ (toString n).toList) :
    CharClass.isBlank c = false ∧ c ≠ ',' := by
  rcases mem_toString h with rfl | hdigit
  · exact ⟨by decide +kernel, by decide +kernel⟩
  · refine ⟨not_isBlank_of_isDigit hdigit, ?_⟩
    rintro rfl
    simp at hdigit

theorem trim_toString (n : Int) : trim (toString n).toList = (toString n).toList :=
  trim_of_ends (fun _ hc => (plain_of_mem_toString (List.mem_of_mem_head? hc)).1)
    (fun _ hc => (plain_of_mem_toString (List.mem_of_getLast? hc)).1)

theorem trim_blank_toString (n : Int) : trim (' ' :: (toString n).toList) = (toString n).toList := by
  have hblank : CharClass.isBlank ' ' = true := by decide
  have htrim := trim_toString n
  rw [trim] at htrim ⊢
  rw [List.dropWhile_cons_of_pos hblank, htrim]

/-- Behind every comma stands a blank. -/
theorem splitCommas_intercalate (n : Int) (dims : List Int) :
    splitCommas (String.intercalate ", " ((n :: dims).map toString)).toList =
      (toString n).toList :: dims.map fun m => ' ' :: (toString m).toList := by
  have hcomma : ∀ m : Int, ',' ∉ (toString m).toList := fun m h => (plain_of_mem_toString h).2 rfl
  induction dims generalizing n with
  | nil => simpa using splitCommas_of_notMem (hcomma n)
  | cons m dims ih =>
      have hbody : (String.intercalate ", " ((n :: m :: dims).map toString)).toList =
          (toString n).toList ++
            ',' :: ' ' :: (String.intercalate ", " ((m :: dims).map toString)).toList := by
        simp [String.intercalate_cons_cons]
      rw [hbody, splitCommas_append (hcomma n), splitCommas, ih m]
      simp

/-- The parts between the commas of the text of a shape, without blanks. -/
theorem parts_of_shape (dims : List Int) :
    ((splitCommas (String.intercalate ", " (dims.map toString)).toList).map trim).filter (· ≠ []) =
      dims.map fun n => (toString n).toList := by
  have hne : ∀ m : Int, (toString m).toList ≠ [] := by
    intro m
    rw [Int.toString_eq_repr, Int.repr_eq_if]
    split <;> simp
  cases dims with
  | nil => rfl
  | cons n dims =>
      rw [splitCommas_intercalate, List.map_cons, List.map_map]
      have htrim : trim ∘ (fun m : Int => ' ' :: (toString m).toList) =
          fun m => (toString m).toList := funext trim_blank_toString
      rw [trim_toString, htrim, ← List.map_cons (f := fun m : Int => (toString m).toList)]
      refine List.filter_eq_self.mpr (fun part hpart => ?_)
      obtain ⟨m, -, rfl⟩ := List.mem_map.mp hpart
      exact decide_eq_true (hne m)

/-- A shape is read back from its text. -/
theorem parseShape?_showShape (h : ∀ n ∈ dims, IntKind.i64.Fits n) :
    parseShape? (Saving.showShape dims) = some dims := by
  have hchars : (Saving.showShape dims).toList =
      '[' :: ((String.intercalate ", " (dims.map toString)).toList ++ [']']) := by
    simp [Saving.showShape, showInts]
  have htrim : trim (Saving.showShape dims).toList = (Saving.showShape dims).toList := by
    rw [hchars]
    refine trim_of_ends (fun c hc => ?_) (fun c hc => ?_)
    · obtain rfl : c = '[' := by simpa using hc.symm
      decide
    · obtain rfl : c = ']' := by simpa [List.getLast?_cons] using hc.symm
      decide
  have hparse : (dims.map fun n => (toString n).toList).mapM (fun part =>
      (IntKind.i64.parse (String.ofList part)).toOption.map fun n => n.val) = some dims := by
    clear htrim hchars
    induction dims with
    | nil => rfl
    | cons n dims ih =>
        have hn : IntKind.i64.parse (toString n) = .ok ⟨n, h n List.mem_cons_self⟩ :=
          IntKind.parse_toString ⟨n, h n List.mem_cons_self⟩
        have hdims := ih fun m hm => h m (List.mem_cons_of_mem n hm)
        rw [List.map_cons, List.mapM_cons, hdims, String.ofList_toList, hn]
        rfl
  unfold parseShape?
  rw [htrim, hchars]
  split
  · rename_i rest heq
    cases heq
    rw [if_pos (by simp), List.dropLast_concat, parts_of_shape]
    exact hparse
  · rename_i hbracket
    exact absurd rfl (hbracket _)

end Loading

end ObjectRuntime
