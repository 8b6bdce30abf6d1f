import ObjectRuntime.Proofs.Text.Descriptions
set_option autoImplicit false

/-!
# The grammar of data types

A text is a data type if it is `bool`, or the name of a kind, then the bits unless they are left out,
then an `x` and the lanes unless these are left out.  Reading takes every such text for what it writes.
It takes some others too: a plus sign may stand before the lanes, and after them a further `x` with
anything behind it.  Nothing else is read, so no two data types that can be named have the same text.
-/

namespace ObjectRuntime

/-- A decimal numeral: one digit or more, and nothing else. -/
structure IsNumeral (cs : List Char) (n : Nat) : Prop where
  nonempty : cs ≠ []
  digits : ∀ c ∈ cs, c.isDigit = true
  value : Nat.ofDigitChars 10 cs 0 = n

namespace IntKind

variable {k : IntKind} {cs : List Char} {acc n : Nat} {m : Int} {c : Char}

theorem digit?_eq (c : Char) : digit? c = if c.isDigit then some (c.toNat - '0'.toNat) else none := by
  have hiff : ('0' ≤ c ∧ c ≤ '9') ↔ c.isDigit = true := Char.isDigit_iff_toNat.symm
  simp only [digit?, hiff]

theorem le_ofDigitChars (cs : List Char) (acc : Nat) : acc ≤ Nat.ofDigitChars 10 cs acc := by
  induction cs generalizing acc with
  | nil => exact Nat.le_refl acc
  | cons c cs ih =>
      rw [Nat.ofDigitChars_cons]
      exact Nat.le_trans (by omega) (ih _)

/-- Digits are read if the number that they write is in range, and then as this number. -/
theorem parseDigits_eq_ok (hacc : k.Fits acc) :
    k.parseDigits false acc cs = .ok m ↔
      (∀ c ∈ cs, c.isDigit = true) ∧ m = Nat.ofDigitChars 10 cs acc ∧ k.Fits m := by
  induction cs generalizing acc with
  | nil =>
      simp only [parseDigits, Except.ok.injEq, List.not_mem_nil, false_implies, implies_true,
        true_and, Nat.ofDigitChars_nil]
      constructor
      · rintro rfl
        exact ⟨rfl, hacc⟩
      · exact fun h => h.1.symm
  | cons c cs ih =>
      rw [parseDigits, digit?_eq, List.forall_mem_cons, Nat.ofDigitChars_cons]
      by_cases hc : c.isDigit = true
      · have happend := appendDigit_signed false acc (c.toNat - '0'.toNat)
        have happend : appendDigit false acc (c.toNat - '0'.toNat) =
            ((10 * acc + (c.toNat - '0'.toNat) : Nat) : Int) := happend
        simp only [hc, if_true, true_and, happend]
        split
        · rename_i hfits
          exact ih hfits
        · rename_i hfits
          -- the number only grows with further digits
          refine iff_of_false (fun h => by cases h) ?_
          rintro ⟨-, rfl, hm⟩
          have hm : k.Fits (signed false
              (Nat.ofDigitChars 10 cs (10 * acc + (c.toNat - '0'.toNat)))) := hm
          exact hfits (fits_signed_of_le hm (le_ofDigitChars cs _))
      · simp [hc]

theorem parseDigits_numeral (hne : cs ≠ []) :
    k.parseDigits false 0 cs = .ok m ↔ ∃ n : Nat, IsNumeral cs n ∧ m = n ∧ k.Fits m := by
  have hzero : k.Fits ((0 : Nat) : Int) := k.fits_zero
  have hread : k.parseDigits false 0 cs = .ok m ↔ _ := parseDigits_eq_ok hzero
  rw [hread]
  constructor
  · rintro ⟨hdigits, hm, hfits⟩
    exact ⟨_, ⟨hne, hdigits, rfl⟩, hm, hfits⟩
  · rintro ⟨n, ⟨-, hdigits, rfl⟩, hm, hfits⟩
    exact ⟨hdigits, hm, hfits⟩

/-- Where there are no negative numbers a text is read if it is a numeral, behind a plus sign or not. -/
theorem parseChars_eq_ok (hk : k.isSigned = false) :
    k.parseChars cs = .ok m ↔
      ∃ numeral, (cs = numeral ∨ cs = '+' :: numeral) ∧
        ∃ n : Nat, IsNumeral numeral n ∧ m = n ∧ k.Fits m := by
  constructor
  · intro h
    unfold parseChars at h
    split at h
    · cases h
    · cases h
    · cases h
    · rename_i rest hne
      exact ⟨rest, .inr rfl, (parseDigits_numeral (by rintro rfl; simp_all)).mp h⟩
    · rename_i c rest _ _ _
      rw [if_neg (by simp [hk])] at h
      exact ⟨c :: rest, .inl rfl, (parseDigits_numeral (List.cons_ne_nil c rest)).mp h⟩
  · rintro ⟨numeral, hcs, n, hnumeral, hm⟩
    have hread := (parseDigits_numeral hnumeral.nonempty).mpr ⟨n, hnumeral, hm⟩
    obtain ⟨c, rest, rfl⟩ := List.exists_cons_of_ne_nil hnumeral.nonempty
    rcases hcs with rfl | rfl
    · have hdigit := hnumeral.digits c List.mem_cons_self
      rw [parseChars_of_ne_sign (by rintro rfl; simp at hdigit) (by rintro rfl; simp at hdigit)]
      exact hread
    · exact hread

end IntKind

namespace DataType

variable {d e : DataType} {s : String} {cs typ : List Char} {name : String} {n : Nat}
  {k : IntKind}

/-! ## The grammar -/

/-- The names of the kinds with their codes. -/
def kinds : List (String × UInt8) :=
  [("int", intCode), ("uint", uintCode), ("float", floatCode), ("bfloat", bfloatCode),
    ("handle", handleCode)]

/-- What stands for the bits of a kind: a numeral, or nothing for the usual number of bits. -/
def WritesBits (name : String) (cs : List Char) (bits : UInt8) : Prop :=
  cs = [] ∧ bits = (if name = "handle" then 64 else 32) ∨ IsNumeral cs bits.toNat

/-- What stands for the lanes: a numeral behind an `x`, or nothing for a single lane. -/
def WritesLanes (cs : List Char) (lanes : UInt16) : Prop :=
  cs = [] ∧ lanes = 1 ∨ ∃ numeral, cs = 'x' :: numeral ∧ IsNumeral numeral lanes.toNat

/-- Nothing, or a text that starts with an `x`. -/
def NothingOrX (cs : List Char) : Prop := cs = [] ∨ ∃ rest, cs = 'x' :: rest

/-- What is taken for the lanes as well: a numeral behind an `x` with a plus sign before it, with a
further `x` and anything else behind it, or with both. -/
def LooseLanes (cs : List Char) (lanes : UInt16) : Prop :=
  ∃ sign numeral tail, cs = 'x' :: (sign ++ numeral ++ tail) ∧ IsNumeral numeral lanes.toNat ∧
    (sign = [] ∨ sign = ['+']) ∧ NothingOrX tail ∧ ¬ (sign = [] ∧ tail = [])

/-- The name of a kind, the bits and the lanes one after another. -/
def Composed (lanes : List Char → UInt16 → Prop) (cs : List Char) (d : DataType) : Prop :=
  ∃ name bitsText lanesText, cs = name.toList ++ bitsText ++ lanesText ∧ (name, d.code) ∈ kinds ∧
    WritesBits name bitsText d.bits ∧ lanes lanesText d.lanes

/-- The text is a data type. -/
def Written (cs : List Char) (d : DataType) : Prop :=
  cs = "bool".toList ∧ d = bool ∨ Composed WritesLanes cs d

/-- The text is no data type, but is read as one. -/
def Tolerated (cs : List Char) (d : DataType) : Prop := Composed LooseLanes cs d

/-! ## Reading -/

theorem parseNumber_eq_ok (hk : k.isSigned = false) :
    parseNumber k cs = .ok n ↔
      ∃ numeral, (cs = numeral ∨ cs = '+' :: numeral) ∧ IsNumeral numeral n ∧ k.Fits n := by
  have hparse : parseNumber k cs = .ok n ↔ ∃ m, k.parseChars cs = .ok m ∧ m.toNat = n := by
    unfold parseNumber
    split <;> simp [*]
  rw [hparse]
  constructor
  · rintro ⟨m, hm, rfl⟩
    obtain ⟨numeral, hcs, n, hnumeral, rfl, hfits⟩ := (IntKind.parseChars_eq_ok hk).mp hm
    exact ⟨numeral, hcs, hnumeral, hfits⟩
  · rintro ⟨numeral, hcs, hnumeral, hfits⟩
    exact ⟨n, (IntKind.parseChars_eq_ok hk).mpr ⟨numeral, hcs, n, hnumeral, rfl, hfits⟩, rfl⟩

theorem kindCode?_eq (name : String) : kindCode? name = kinds.lookup name := by
  simp only [kindCode?, kinds, lookup_cons_eq, List.lookup_nil]

theorem kindCode?_eq_some {code : UInt8} : kindCode? name = some code ↔ (name, code) ∈ kinds := by
  rw [kindCode?_eq]
  exact ⟨mem_of_lookup, lookup_of_mem (by decide)⟩

/-- The names have no `x` and no digits. -/
theorem namesKind_of_mem {code : UInt8} (h : (name, code) ∈ kinds) :
    NamesKind name.toList code ∧ code ≤ 4 := by
  refine ⟨⟨?_, ?_⟩, ?_⟩
  · have hall : ∀ p ∈ kinds,
        p.1.toList.all (fun c => !CharClass.isNumeric c && c != 'x') = true := by decide
    simpa using hall _ h
  · rw [String.ofList_toList]
    exact kindCode?_eq_some.mpr h
  · have hall : ∀ p ∈ kinds, p.2 ≤ 4 := by decide
    exact hall _ h

theorem span_at_x {front rest : List Char} (hfront : ∀ c ∈ front, c ≠ 'x')
    (hrest : NothingOrX rest) : (front ++ rest).span (· != 'x') = (front, rest) := by
  refine span_append (fun c hc => bne_iff_ne.mpr (hfront c hc)) fun c hc => ?_
  rcases hrest with rfl | ⟨rest, rfl⟩
  · cases hc
  · cases hc
    rfl

theorem exists_span_at_x (cs : List Char) :
    ∃ front rest, cs = front ++ rest ∧ (∀ c ∈ front, c ≠ 'x') ∧ NothingOrX rest := by
  induction cs with
  | nil => exact ⟨[], [], rfl, by simp, .inl rfl⟩
  | cons c cs ih =>
      by_cases hc : c = 'x'
      · exact ⟨[], c :: cs, rfl, by simp, .inr ⟨cs, hc ▸ rfl⟩⟩
      · obtain ⟨front, rest, rfl, hfront, hrest⟩ := ih
        exact ⟨c :: front, rest, rfl, List.forall_mem_cons.mpr ⟨hc, hfront⟩, hrest⟩

/-- Reads what stands for the bits of a kind. -/
def readBits (name bitsText : List Char) : Except ParseError Nat :=
  if bitsText.isEmpty then .ok (if String.ofList name = "handle" then 64 else 32)
  else parseNumber .u8 bitsText

/-- Reads what stands for the lanes, up to a second `x`. -/
def readLanes : List Char → Except ParseError Nat
  | [] => .ok 1
  | _ :: rest => parseNumber .u16 (rest.takeWhile (· != 'x'))

/-- A text is read in three parts: up to a character with a numeric value, from there up to an `x`, and
the rest. -/
theorem parseChars_eq_ok {name bitsText lanesText : List Char}
    (hletters : ∀ c ∈ name, CharClass.isNumeric c = false ∧ c ≠ 'x')
    (hbits : ∀ c ∈ bitsText.head?, CharClass.isNumeric c = true)
    (hx : ∀ c ∈ bitsText, c ≠ 'x') (hlanes : NothingOrX lanesText) :
    parseChars (name ++ bitsText ++ lanesText) = .ok d ↔
      ∃ lanes bits code, readLanes lanesText = .ok lanes ∧ readBits name bitsText = .ok bits ∧
        kindCode? (String.ofList name) = some code ∧
        d = ⟨code, UInt8.ofNat bits, UInt16.ofNat lanes⟩ := by
  have houter : (name ++ bitsText ++ lanesText).span (· != 'x') = (name ++ bitsText, lanesText) := by
    refine span_at_x (fun c hc => ?_) hlanes
    exact (List.mem_append.mp hc).elim (fun hc => (hletters c hc).2) (hx c)
  have hinner : (name ++ bitsText).span (fun c => !CharClass.isNumeric c) = (name, bitsText) :=
    span_append (fun c hc => by simp [(hletters c hc).1]) fun c hc => by simp [hbits c hc]
  have hread : parseChars (name ++ bitsText ++ lanesText) =
      (readLanes lanesText).bind fun lanes => (readBits name bitsText).bind fun bits =>
        (kindCode? (String.ofList name)).elim (.error (.unknownKind (String.ofList name)))
          fun code => .ok ⟨code, UInt8.ofNat bits, UInt16.ofNat lanes⟩ := by
    unfold parseChars splitLanes readBits
    rw [houter]
    dsimp only
    rw [hinner]
    cases kindCode? (String.ofList name) <;> cases lanesText <;> cases bitsText <;> rfl
  rw [hread]
  cases readLanes lanesText <;> cases readBits name bitsText <;>
    cases kindCode? (String.ofList name) <;> simp [Except.bind, eq_comm]

/-- Every text has these parts. -/
theorem exists_parts (cs : List Char) : ∃ name bitsText lanesText,
    cs = name ++ bitsText ++ lanesText ∧
    (∀ c ∈ name, CharClass.isNumeric c = false ∧ c ≠ 'x') ∧
    (∀ c ∈ bitsText.head?, CharClass.isNumeric c = true) ∧
    (∀ c ∈ bitsText, c ≠ 'x') ∧ NothingOrX lanesText := by
  obtain ⟨typ, lanesText, rfl, htyp, hlanes⟩ := exists_span_at_x cs
  let letter := fun c => !CharClass.isNumeric c
  have hsplit : typ.takeWhile letter ++ typ.dropWhile letter = typ := List.takeWhile_append_dropWhile
  refine ⟨typ.takeWhile letter, typ.dropWhile letter, lanesText, by rw [hsplit], fun c hc => ?_,
    fun c hc => ?_, fun c hc => ?_, hlanes⟩
  · have hletter := List.mem_takeWhile_imp hc
    exact ⟨by simpa [letter] using hletter, htyp c (List.takeWhile_subset _ hc)⟩
  · have hstop := List.head?_dropWhile_not letter typ
    rw [hc] at hstop
    simpa [letter] using hstop
  · exact htyp c ((List.dropWhile_sublist _).subset hc)

/-- What is written for the bits is read as the bits. -/
theorem readBits_eq_ok {name bitsText : List Char}
    (hbits : ∀ c ∈ bitsText.head?, CharClass.isNumeric c = true) :
    readBits name bitsText = .ok n ↔
      ∃ bits : UInt8, bits.toNat = n ∧ WritesBits (String.ofList name) bitsText bits := by
  cases bitsText with
  | nil =>
      have hdefault : readBits name [] = .ok n ↔
          (if String.ofList name = "handle" then 64 else 32) = n := by simp [readBits]
      rw [hdefault]
      constructor
      · rintro rfl
        refine ⟨_, ?_, .inl ⟨rfl, rfl⟩⟩
        split <;> rfl
      · rintro ⟨bits, rfl, ⟨-, rfl⟩ | hnumeral⟩
        · split <;> rfl
        · exact absurd rfl hnumeral.nonempty
  | cons c rest =>
      have hparse : readBits name (c :: rest) = parseNumber .u8 (c :: rest) := rfl
      rw [hparse, parseNumber_eq_ok rfl]
      constructor
      · rintro ⟨numeral, hcs, hnumeral, hfits⟩
        have hlt : n < 256 := by
          have hmax : (n : Int) ≤ 255 := hfits.2
          omega
        have hn : (UInt8.ofNat n).toNat = n := UInt8.toNat_ofNat_of_lt' hlt
        rcases hcs with rfl | hplus
        · exact ⟨UInt8.ofNat n, hn, .inr (hn.symm ▸ hnumeral)⟩
        · cases hplus
          exact absurd (hbits '+' rfl) (by decide)
      · rintro ⟨bits, rfl, ⟨hnil, -⟩ | hnumeral⟩
        · cases hnil
        · refine ⟨_, .inl rfl, hnumeral, Int.natCast_nonneg _, ?_⟩
          have hlt := bits.toNat_lt
          show (bits.toNat : Int) ≤ 255
          omega

/-- What is taken for the lanes, whether or not it is written as it should be. -/
theorem takenForLanes_iff {rest : List Char} {lanes : UInt16} :
    WritesLanes ('x' :: rest) lanes ∨ LooseLanes ('x' :: rest) lanes ↔
      ∃ sign numeral tail, rest = sign ++ numeral ++ tail ∧ IsNumeral numeral lanes.toNat ∧
        (sign = [] ∨ sign = ['+']) ∧ NothingOrX tail := by
  constructor
  · rintro ((⟨hnil, -⟩ | ⟨numeral, hcons, hnumeral⟩) |
      ⟨sign, numeral, tail, hcons, hnumeral, hsign, htail, -⟩)
    · cases hnil
    · refine ⟨[], numeral, [], ?_, hnumeral, .inl rfl, .inl rfl⟩
      rw [List.nil_append, List.append_nil]
      exact List.tail_eq_of_cons_eq hcons
    · exact ⟨sign, numeral, tail, List.tail_eq_of_cons_eq hcons, hnumeral, hsign, htail⟩
  · rintro ⟨sign, numeral, tail, rfl, hnumeral, hsign, htail⟩
    by_cases hplain : sign = [] ∧ tail = []
    · obtain ⟨rfl, rfl⟩ := hplain
      refine .inl (.inr ⟨numeral, ?_, hnumeral⟩)
      rw [List.nil_append, List.append_nil]
    · exact .inr ⟨sign, numeral, tail, rfl, hnumeral, hsign, htail, hplain⟩

/-- What is read as the lanes: no more than the digits up to a second `x`, and a plus sign is passed
over. -/
theorem readLanes_eq_ok {lanesText : List Char} (hx : NothingOrX lanesText) :
    readLanes lanesText = .ok n ↔
      ∃ lanes : UInt16, lanes.toNat = n ∧
        (WritesLanes lanesText lanes ∨ LooseLanes lanesText lanes) := by
  rcases hx with rfl | ⟨rest, rfl⟩
  · have hone : readLanes [] = .ok n ↔ 1 = n := by simp [readLanes]
    rw [hone]
    constructor
    · rintro rfl
      exact ⟨1, rfl, .inl (.inl ⟨rfl, rfl⟩)⟩
    · rintro ⟨lanes, rfl, (⟨-, rfl⟩ | ⟨_, hcons, -⟩) | ⟨_, _, _, hcons, -⟩⟩
      · rfl
      · cases hcons
      · cases hcons
  · obtain ⟨front, tail, rfl, hfront, htail⟩ := exists_span_at_x rest
    have hparse : readLanes ('x' :: (front ++ tail)) = parseNumber .u16 front := by
      have hspan := span_at_x hfront htail
      rw [List.span_eq_takeWhile_dropWhile] at hspan
      have hfront : (front ++ tail).takeWhile (· != 'x') = front := congrArg Prod.fst hspan
      rw [readLanes, hfront]
    have hnumber : parseNumber .u16 front = .ok n ↔ _ := parseNumber_eq_ok rfl
    rw [hparse, hnumber]
    simp only [takenForLanes_iff]
    constructor
    · rintro ⟨numeral, hcs, hnumeral, hfits⟩
      have hlt : n < 65536 := by
        have hmax : (n : Int) ≤ 65535 := hfits.2
        omega
      have hn : (UInt16.ofNat n).toNat = n := UInt16.toNat_ofNat_of_lt' hlt
      refine ⟨UInt16.ofNat n, hn, ?_⟩
      rcases hcs with rfl | rfl
      · exact ⟨[], front, tail, rfl, hn.symm ▸ hnumeral, .inl rfl, htail⟩
      · exact ⟨['+'], numeral, tail, rfl, hn.symm ▸ hnumeral, .inr rfl, htail⟩
    · rintro ⟨lanes, rfl, sign, numeral, tail', hrest, hnumeral, hsign, htail'⟩
      have hsigned : ∀ c ∈ sign ++ numeral, c ≠ 'x' := by
        intro c hc
        rcases List.mem_append.mp hc with hc | hc
        · rcases hsign with rfl | rfl
          · cases hc
          · rw [List.mem_singleton.mp hc]
            decide
        · exact (isNumeric_of_isDigit (hnumeral.digits c hc)).2
      -- both are what stands before the first `x`
      have hsame := span_at_x hfront htail
      rw [hrest, span_at_x hsigned htail'] at hsame
      obtain rfl : sign ++ numeral = front := congrArg Prod.fst hsame
      refine ⟨numeral, ?_, hnumeral, Int.natCast_nonneg _, ?_⟩
      · exact hsign.imp (fun h => by rw [h]; rfl) (fun h => by rw [h]; rfl)
      · have hlt := lanes.toNat_lt
        show (lanes.toNat : Int) ≤ 65535
        omega

/-! ## Exactness -/

/-- What is taken for the lanes ends the kind and the bits. -/
theorem nothingOrX_of_lanes {lanesText : List Char} {lanes : UInt16}
    (h : WritesLanes lanesText lanes ∨ LooseLanes lanesText lanes) : NothingOrX lanesText := by
  rcases h with (⟨rfl, -⟩ | ⟨numeral, rfl, -⟩) | ⟨sign, numeral, tail, rfl, -⟩
  · exact .inl rfl
  · exact .inr ⟨_, rfl⟩
  · exact .inr ⟨_, rfl⟩

/-- What stands for the bits starts with a digit, if with anything, and has no `x`. -/
theorem WritesBits.apart {bitsText : List Char} {bits : UInt8} (h : WritesBits name bitsText bits) :
    (∀ c ∈ bitsText.head?, CharClass.isNumeric c = true) ∧ ∀ c ∈ bitsText, c ≠ 'x' := by
  rcases h with ⟨rfl, -⟩ | hnumeral
  · exact ⟨by simp, by simp⟩
  · exact ⟨fun c hc => (isNumeric_of_isDigit (hnumeral.digits c (List.mem_of_mem_head? hc))).1,
      fun c hc => (isNumeric_of_isDigit (hnumeral.digits c hc)).2⟩

/-- The texts that are read character by character. -/
theorem parseChars_eq_ok_iff :
    parseChars cs = .ok d ↔
      Composed (fun text lanes => WritesLanes text lanes ∨ LooseLanes text lanes) cs d := by
  constructor
  · intro h
    obtain ⟨name, bitsText, lanesText, rfl, hletters, hbits, hx, hlanes⟩ := exists_parts cs
    obtain ⟨n, m, code, hreadLanes, hreadBits, hkind, rfl⟩ :=
      (parseChars_eq_ok hletters hbits hx hlanes).mp h
    obtain ⟨lanes, rfl, hwritesLanes⟩ := (readLanes_eq_ok hlanes).mp hreadLanes
    obtain ⟨bits, rfl, hwritesBits⟩ := (readBits_eq_ok hbits).mp hreadBits
    refine ⟨String.ofList name, bitsText, lanesText, by rw [String.toList_ofList],
      kindCode?_eq_some.mp hkind, ?_, ?_⟩
    · simpa using hwritesBits
    · simpa using hwritesLanes
  · rintro ⟨name, bitsText, lanesText, rfl, hkind, hbits, hlanes⟩
    obtain ⟨hhead, hx⟩ := hbits.apart
    have hends := nothingOrX_of_lanes hlanes
    have hname := (namesKind_of_mem hkind).1
    refine (parseChars_eq_ok hname.letters hhead hx hends).mpr
      ⟨d.lanes.toNat, d.bits.toNat, d.code, (readLanes_eq_ok hends).mpr ⟨_, rfl, hlanes⟩,
        (readBits_eq_ok hhead).mpr ⟨_, rfl, ?_⟩, hname.kind, ?_⟩
    · rw [String.ofList_toList]
      exact hbits
    · simp

theorem composed_or {P Q : List Char → UInt16 → Prop} :
    Composed (fun text lanes => P text lanes ∨ Q text lanes) cs d ↔
      Composed P cs d ∨ Composed Q cs d := by
  simp only [Composed, and_or_left, exists_or]

theorem parseChars_bool : parseChars "bool".toList = .error (.unknownKind "bool") := by decide

/-- A text is read if it is a data type or is taken for one. -/
theorem parse_eq_ok_iff : parse s = .ok d ↔ Written s.toList d ∨ Tolerated s.toList d := by
  have hbool : s.toList = "bool".toList ↔ s = "bool" := String.toList_inj
  have hread : parse s = .ok d ↔ (s = "bool" ∧ d = bool) ∨ parseChars s.toList = .ok d := by
    unfold parse
    by_cases hs : s = "bool"
    · subst hs
      rw [if_pos rfl, parseChars_bool]
      simp [eq_comm]
    · rw [if_neg hs]
      by_cases hempty : s = ""
      · subst hempty
        have hrefused : parseChars "".toList = .error (.unknownKind "") := by decide
        rw [if_pos rfl, hrefused]
        simp
      · rw [if_neg hempty]
        simp [hs]
  rw [hread, parseChars_eq_ok_iff, composed_or, Written, hbool, or_assoc]
  rfl

/-- The kind and the bits end where the first `x` stands. -/
theorem Composed.exists_front {P : List Char → UInt16 → Prop} (h : Composed P cs d)
    (hP : ∀ {text lanes}, P text lanes → NothingOrX text) :
    ∃ front lanesText, cs.span (· != 'x') = (front, lanesText) ∧ P lanesText d.lanes := by
  obtain ⟨name, bitsText, lanesText, rfl, hkind, hbits, hlanes⟩ := h
  refine ⟨name.toList ++ bitsText, lanesText, span_at_x (fun c hc => ?_) (hP hlanes), hlanes⟩
  exact (List.mem_append.mp hc).elim (fun hc => ((namesKind_of_mem hkind).1.letters c hc).2)
    (hbits.apart.2 c)

theorem WritesLanes.not_looseLanes {lanesText : List Char} {lanes lanes' : UInt16}
    (h : WritesLanes lanesText lanes) : ¬ LooseLanes lanesText lanes' := by
  rintro ⟨sign, numeral, tail, rfl, -, hsign, htail, hplain⟩
  obtain ⟨hnil, -⟩ | ⟨numeral', hcons, hnumeral'⟩ := h
  · cases hnil
  · obtain rfl : sign ++ numeral ++ tail = numeral' := List.tail_eq_of_cons_eq hcons
    rcases hsign with rfl | rfl
    · rcases htail with rfl | ⟨rest, rfl⟩
      · exact hplain ⟨rfl, rfl⟩
      · have hdigit := hnumeral'.digits 'x' (by simp)
        cases hdigit
    · have hdigit := hnumeral'.digits '+' (by simp)
      cases hdigit

/-- No text both is a data type and is only taken for one. -/
theorem Written.not_tolerated (h : Written cs d) : ¬ Tolerated cs e := by
  intro htolerated
  rcases h with ⟨rfl, -⟩ | hwritten
  · have hread := parseChars_eq_ok_iff.mpr (composed_or.mpr (.inr htolerated))
    rw [parseChars_bool] at hread
    cases hread
  · obtain ⟨front, lanesText, hspan, hlanes⟩ :=
      hwritten.exists_front fun h => nothingOrX_of_lanes (.inl h)
    obtain ⟨front', lanesText', hspan', hlanes'⟩ :=
      htolerated.exists_front fun h => nothingOrX_of_lanes (.inr h)
    cases hspan.symm.trans hspan'
    exact hlanes.not_looseLanes hlanes'

/-- Reading is exact but for the texts that are only taken for data types. -/
theorem parse_exact_iff (s : String) :
    (∀ d, parse s = .ok d ↔ Written s.toList d ∨ Tolerated s.toList d) ∧
    ((∀ d, parse s = .ok d ↔ Written s.toList d) ↔ ¬ ∃ d, Tolerated s.toList d) := by
  refine ⟨fun d => parse_eq_ok_iff, ?_, fun h d => ?_⟩
  · rintro hexact ⟨d, htolerated⟩
    exact ((hexact d).mp (parse_eq_ok_iff.mpr (.inr htolerated))).not_tolerated htolerated
  · exact parse_eq_ok_iff.trans (or_iff_left fun htolerated => h ⟨d, htolerated⟩)

/-- A further segment and a plus sign are read over. -/
theorem parse_not_exact :
    parse "int32x4x5" = .ok (int 32 4) ∧ (¬ ∃ d, Written "int32x4x5".toList d) ∧
    parse "int32x+4" = .ok (int 32 4) ∧ ¬ ∃ d, Written "int32x+4".toList d := by
  have hkind : ("int", intCode) ∈ kinds := List.mem_cons_self
  have hbits : WritesBits "int" "32".toList 32 :=
    .inr ⟨by decide, List.all_eq_true.mp rfl, rfl⟩
  have hfour : IsNumeral "4".toList 4 := ⟨by decide, List.all_eq_true.mp rfl, rfl⟩
  have htail : Tolerated "int32x4x5".toList (int 32 4) :=
    ⟨"int", "32".toList, "x4x5".toList, rfl, hkind, hbits,
      [], "4".toList, "x5".toList, rfl, hfour, .inl rfl, .inr ⟨"5".toList, rfl⟩, by decide⟩
  have hsign : Tolerated "int32x+4".toList (int 32 4) :=
    ⟨"int", "32".toList, "x+4".toList, rfl, hkind, hbits,
      ['+'], "4".toList, [], rfl, hfour, .inr rfl, .inl rfl, by decide⟩
  exact ⟨parse_eq_ok_iff.mpr (.inr htail), fun ⟨d, h⟩ => h.not_tolerated htail,
    parse_eq_ok_iff.mpr (.inr hsign), fun ⟨d, h⟩ => h.not_tolerated hsign⟩

/-! ## Printing -/

/-- Whatever is read has a kind with a name. -/
theorem code_le_of_parse (h : parse s = .ok d) : d.code ≤ 4 := by
  rcases parse_eq_ok_iff.mp h with (⟨-, rfl⟩ | ⟨_, _, _, -, hkind, -⟩) | ⟨_, _, _, -, hkind, -⟩
  · decide
  · exact (namesKind_of_mem hkind).2
  · exact (namesKind_of_mem hkind).2

/-- Where no `x` is written there is one lane. -/
theorem lanes_of_parse (h : parse s = .ok d) (hx : ∀ c ∈ s.toList, c ≠ 'x') : d.lanes = 1 := by
  have hlanes : ∀ {name bitsText lanesText : List Char} {rest : List Char},
      s.toList = name ++ bitsText ++ lanesText → lanesText ≠ 'x' :: rest := by
    rintro name bitsText lanesText rest hs rfl
    exact hx 'x' (by simp [hs]) rfl
  rcases parse_eq_ok_iff.mp h with (⟨-, rfl⟩ | ⟨name, _, _, hs, -, -, hwrites⟩) |
    ⟨name, _, _, hs, -, -, _, _, _, hcons, -⟩
  · rfl
  · rcases hwrites with ⟨-, hone⟩ | ⟨_, hcons, -⟩
    · exact hone
    · exact absurd hcons (hlanes hs)
  · exact absurd hcons (hlanes hs)

/-- No lanes are written as if there were one. -/
theorem ne_x_of_mem_toText (h : d.code ≤ 4) (hlanes : d.lanes = 0) :
    ∀ c ∈ d.toText.toList, c ≠ 'x' := by
  have hmany : ¬ (d.isBool && d.lanes == 1) = true := by simp [hlanes]
  have hnone : lanesText d.lanes = [] := by
    rw [hlanes]
    rfl
  rw [toList_toText hmany, hnone, List.append_nil]
  intro c hc
  rcases List.mem_append.mp hc with hc | hc
  · exact ((namesKind h).letters c hc).2
  · exact (isNumeric_of_mem_toDigits hc).2

/-- A data type is read back from its text exactly if it can be named. -/
theorem parse_toText_iff : parse d.toText = .ok d ↔ d.Nameable := by
  refine ⟨fun h => ?_, parse_toText⟩
  have hcode := code_le_of_parse h
  refine ⟨hcode, ?_⟩
  by_contra hlanes
  have hzero : d.lanes = 0 := by
    simpa [UInt16.lt_one_iff] using hlanes
  have hone := lanes_of_parse h (ne_x_of_mem_toText hcode hzero)
  rw [hzero] at hone
  cases hone

/-- Printing and reading are inverse exactly on the data types that can be named, and no two of these
have the same text. -/
theorem print_and_parse_inverse (d e : DataType) :
    (parse d.toText = .ok d ↔ d.Nameable) ∧
    (d.Nameable → e.Nameable → d ≠ e → d.toText ≠ e.toText) := by
  refine ⟨parse_toText_iff, fun hd he hne htext => hne ?_⟩
  have hread := parse_toText hd
  rw [htext, parse_toText he] at hread
  exact (Except.ok.inj hread).symm

/-- Two truth values side by side are not written as one. -/
theorem print_and_parse_inverse_bool :
    (uint 1 2).Nameable ∧ bool.Nameable ∧ uint 1 2 ≠ bool ∧
    parse (uint 1 2).toText = .ok (uint 1 2) ∧ (uint 1 2).toText ≠ bool.toText := by
  obtain ⟨hread, happart⟩ := print_and_parse_inverse (uint 1 2) bool
  exact ⟨by decide, by decide, by decide, hread.mpr (by decide),
    happart (by decide) (by decide) (by decide)⟩

end DataType

end ObjectRuntime
