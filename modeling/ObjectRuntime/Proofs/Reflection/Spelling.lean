import ObjectRuntime.Proofs.Reflection.Building
import ObjectRuntime.Proofs.Reflection.Objects
import ObjectRuntime.Proofs.Reflection.Saving
import ObjectRuntime.Reflection.Load
set_option autoImplicit false

/-!
# Values read from their texts

The text of an attribute is offered to the type of its field in several readings.  The readings that
come before the one that it was written in are refused, or stand for the same value.
-/

namespace ObjectRuntime

open World (SameValue)

variable {κ : Type}

namespace Double

/-- The number that stands for what is not a number, in single precision and back. -/
theorem isNaN_ofText?_nan :
    ∃ y, Double.ofText? "NaN" = some y ∧ y.isNaN = true ∧ y.toSingle.toDouble.isNaN = true := by
  decide

theorem eq_negative_zero : (Double.ofRatio true 0 1).eq (Double.ofInt 0) = true := by decide

theorem toSingle_zero : (Double.ofInt 0).toSingle.toDouble = Double.ofInt 0 := by decide

end Double

namespace Loading

open Saving (AttrText)

variable {w v : World κ} {s : BuildState} {t : ValueType} {x y : Value} {rest : List Value}
  {num : Ref → Nat → Prop} {text : String}

/-! ## Trying one reading after another -/

/-- A reading that is refused is passed over, if there is another. -/
theorem firstAccepted_of_refused {cause : Error} (hx : Run.decode t x v = (.error (.error cause), v)) :
    firstAccepted t (x :: y :: rest) s v = firstAccepted t (y :: rest) s v := by
  have hattempt : Build.ofRun (Run.attempt (Run.decode t x)) s v = ((.ok (.error cause), s), v) := by
    simp only [Build.ofRun, Run.attempt, hx]
  rw [firstAccepted, Build.bind_of_ok hattempt]
  intro h
  cases h

/-- A reading that is accepted is the value, if no reference comes with it. -/
theorem firstAccepted_of_accepted {a : t.Carrier} (hx : Run.decode t x v = (.ok a, v))
    (hnone : t.references a = []) :
    firstAccepted t (x :: rest) s v = ((.ok (t.fieldValue a), s), v) := by
  have hkeep : ({ s with held := [] ++ s.held } : BuildState) = s := rfl
  cases rest with
  | nil =>
      rw [firstAccepted, Build.fieldOf, Build.taking_of_ok hx, hnone, hkeep]
  | cons y rest =>
      have hattempt : Build.ofRun (Run.attempt (Run.decode t x)) s v = ((.ok (.ok a), s), v) := by
        simp only [Build.ofRun, Run.attempt, hx]
      have hhold : Build.hold (κ := κ) (t.references a) s v = ((.ok (), s), v) := by
        rw [hnone]
        rfl
      rw [firstAccepted, Build.bind_of_ok hattempt]
      · simp only
        rw [Build.bind_of_ok hhold]
        rfl
      · intro h
        cases h

/-- A plain value is decoded without questions. -/
theorem queryAsking_plain {α : Type} {cs : List ObjectClass} (hx : x.object? = none)
    (f : World κ → Except Error α) :
    Run.queryAsking cs x f v = Run.query f v := by
  simp only [Run.queryAsking, hx]

theorem query_ok {α : Type} {f : World κ → Except Error α} {a : α} (h : f v = .ok a) :
    Run.query f v = (.ok a, v) := by
  rw [Run.query, run_get_bind, h, Run.ofExcept]
  rfl

theorem query_error {α : Type} {f : World κ → Except Error α} {cause : Error}
    (h : f v = .error cause) : Run.query f v = (.error (.error cause), v) := by
  rw [Run.query, run_get_bind, h, Run.ofExcept]
  rfl

/-! ## Readings of the types of fields -/

/-- The text as it stands is read first. -/
theorem candidates_eq (text : String) : ∃ rest, candidates text = .text text :: rest := ⟨_, rfl⟩

/-- An integer is read next, if the text is one. -/
theorem candidates_of_parse {n : I64} (h : IntKind.i64.parse text = .ok n) :
    ∃ rest, candidates text = .text text :: .int n :: rest := by
  simp [candidates, h, Except.toOption]

/-- Otherwise a floating point number is read next, if the text is one. -/
theorem candidates_of_ofText? {d : Double} {cause : ParseIntError}
    (h : IntKind.i64.parse text = .error cause) (hd : Double.ofText? text = some d) :
    ∃ rest, candidates text = .text text :: .float d :: rest := by
  simp [candidates, h, hd, Except.toOption]

/-- A device is read last. -/
theorem candidates_of_device {d : Device} (h : Device.parse text = .ok d) :
    ∃ middle, candidates text = .text text :: middle ++ [.device d.toRaw] ∧
      ∀ x ∈ middle, (∃ n, x = .int n) ∨ ∃ y, x = .float y := by
  refine ⟨(IntKind.i64.parse text).toOption.toList.map .int ++
    (Double.ofText? text).toList.map .float, by simp [candidates, h, Except.toOption], ?_⟩
  intro x hx
  rcases List.mem_append.mp hx with hx | hx
  · obtain ⟨n, -, rfl⟩ := List.mem_map.mp hx
    exact .inl ⟨n, rfl⟩
  · obtain ⟨y, -, rfl⟩ := List.mem_map.mp hx
    exact .inr ⟨y, rfl⟩

theorem firstAccepted_text (text : String) :
    firstAccepted .text (candidates text) s v = ((.ok (.text text), s), v) := by
  obtain ⟨rest, hrest⟩ := candidates_eq text
  have hdecode : Run.decode .text (.text text) v = (.ok text, v) := by
    rw [Run.decode, queryAsking_plain rfl]
    exact query_ok rfl
  rw [hrest, firstAccepted_of_accepted hdecode rfl]
  rfl

theorem firstAccepted_dataType {d : DataType} (hd : d.Nameable) :
    firstAccepted .dataType (candidates d.toText) s v = ((.ok (.dataType d), s), v) := by
  obtain ⟨rest, hrest⟩ := candidates_eq d.toText
  have hdecode : Run.decode .dataType (.text d.toText) v = (.ok d, v) := by
    rw [Run.decode, queryAsking_plain rfl]
    refine query_ok ?_
    simp [World.decodeDataType, World.carriedText?, Value.object?, World.parseDataType,
      DataType.parse_toText hd]
  rw [hrest, firstAccepted_of_accepted hdecode rfl]
  rfl

theorem firstAccepted_int {k : IntKind} {n : I64} (hn : k.Fits n.val) :
    firstAccepted (.int k) (candidates (toString n.val)) s v = ((.ok (.int n), s), v) := by
  obtain ⟨rest, hrest⟩ := candidates_of_parse (IntKind.parse_toString n)
  have hrefused : Run.decode (.int k) (.text (toString n.val)) v =
      (.error (.error (v.mismatchWith (.text (toString n.val)) k.name)), v) := by
    rw [Run.decode, queryAsking_plain rfl]
    exact query_error rfl
  have hdecode : Run.decode (.int k) (.int n) v = (.ok ⟨n.val, hn⟩, v) := by
    rw [Run.decode, queryAsking_plain rfl]
    refine query_ok ?_
    simp [World.decodeInt, World.unboxed, Value.object?, MachineInt.ofInt?, hn]
  have hvalue : (ValueType.int k).fieldValue (⟨n.val, hn⟩ : MachineInt k) = .int n := by
    rw [ValueType.fieldValue, MachineInt.wrap_val]
  rw [hrest, firstAccepted_of_refused hrefused, firstAccepted_of_accepted hdecode rfl, hvalue]

theorem firstAccepted_bool (b : Bool) :
    firstAccepted .bool (candidates (if b then "1" else "0")) s v = ((.ok (.bool b), s), v) := by
  have hparse : IntKind.i64.parse (if b then "1" else "0") = .ok (if b then 1 else 0) := by
    cases b <;> decide
  obtain ⟨rest, hrest⟩ := candidates_of_parse hparse
  have hrefused : Run.decode .bool (.text (if b then "1" else "0")) v =
      (.error (.error (v.mismatchWith (.text (if b then "1" else "0")) ValueType.bool.name)), v) := by
    rw [Run.decode, queryAsking_plain rfl]
    exact query_error rfl
  have hdecode : Run.decode .bool (.int (if b then 1 else 0)) v = (.ok b, v) := by
    rw [Run.decode, queryAsking_plain rfl]
    refine query_ok ?_
    cases b <;> rfl
  rw [hrest, firstAccepted_of_refused hrefused, firstAccepted_of_accepted hdecode rfl]
  rfl

/-- The first reading of a text as a number is the number that was written. -/
theorem candidates_float {x : Double} (hback : x.ReadsBack) :
    (∃ n rest, candidates x.toText = .text x.toText :: .int n :: rest ∧
      (x = Double.ofInt n.val ∨ (x = Double.ofRatio true 0 1 ∧ n.val = 0))) ∨
    ∃ y rest, candidates x.toText = .text x.toText :: .float y :: rest ∧
      (x = y ∨ (x.isNaN = true ∧ y.isNaN = true ∧ y.toSingle.toDouble.isNaN = true)) := by
  cases hparse : IntKind.i64.parse x.toText with
  | ok n =>
      obtain ⟨rest, hrest⟩ := candidates_of_parse hparse
      exact .inl ⟨n, rest, hrest, Double.eq_ofInt_of_parse hback hparse⟩
  | error cause =>
      cases hx : x.isNaN with
      | true =>
          obtain ⟨y, hy, hnan, hsingle⟩ := Double.isNaN_ofText?_nan
          rw [← Double.toText_of_isNaN hx] at hy
          obtain ⟨rest, hrest⟩ := candidates_of_ofText? hparse hy
          exact .inr ⟨y, rest, hrest, .inr ⟨rfl, hnan, hsingle⟩⟩
      | false =>
          obtain ⟨rest, hrest⟩ := candidates_of_ofText? hparse (hback hx)
          exact .inr ⟨x, rest, hrest, .inl rfl⟩

theorem firstAccepted_f64 {x : Double} (hback : x.ReadsBack) :
    ∃ y, firstAccepted .f64 (candidates x.toText) s v = ((.ok (.float y), s), v) ∧
      x.SameNumber y := by
  have hrefused : Run.decode .f64 (.text x.toText) v =
      (.error (.error (v.mismatchWith (.text x.toText) ValueType.f64.name)), v) := by
    rw [Run.decode, queryAsking_plain rfl]
    exact query_error rfl
  rcases candidates_float hback with ⟨n, rest, hrest, hx⟩ | ⟨y, rest, hrest, hx⟩
  · have hdecode : Run.decode .f64 (.int n) v = (.ok (Double.ofInt n.val), v) := by
      rw [Run.decode, queryAsking_plain rfl]
      exact query_ok rfl
    refine ⟨Double.ofInt n.val, ?_, ?_⟩
    · rw [hrest, firstAccepted_of_refused hrefused, firstAccepted_of_accepted hdecode rfl]
      rfl
    · rcases hx with rfl | ⟨rfl, hn⟩
      · exact .refl _
      · rw [hn]
        exact .inl Double.eq_negative_zero
  · have hdecode : Run.decode .f64 (.float y) v = (.ok y, v) := by
      rw [Run.decode, queryAsking_plain rfl]
      exact query_ok rfl
    refine ⟨y, ?_, ?_⟩
    · rw [hrest, firstAccepted_of_refused hrefused, firstAccepted_of_accepted hdecode rfl]
      rfl
    · rcases hx with rfl | ⟨hx, hy, -⟩
      · exact .refl _
      · exact .inr ⟨hx, hy⟩

theorem firstAccepted_f32 {x : Double} (hsingle : x.toSingle.toDouble = x)
    (hback : x.ReadsBack) :
    ∃ y, firstAccepted .f32 (candidates x.toText) s v = ((.ok (.float y), s), v) ∧
      x.SameNumber y := by
  have hrefused : Run.decode .f32 (.text x.toText) v =
      (.error (.error (v.mismatchWith (.text x.toText) ValueType.f64.name)), v) := by
    have hquery : Run.queryAsking Run.travelClasses (.text x.toText)
        (·.decodeDouble (.text x.toText)) v =
        (.error (.error (v.mismatchWith (.text x.toText) ValueType.f64.name)), v) := by
      rw [queryAsking_plain rfl]
      exact query_error rfl
    exact run_bind_of_error hquery
  have hdecode : ∀ {d : Double} {c : Value}, c.object? = none → v.decodeDouble c = .ok d →
      Run.decode .f32 c v = (.ok d.toSingle, v) := by
    intro d c hc hd
    have hquery : Run.queryAsking Run.travelClasses c (·.decodeDouble c) v = (.ok d, v) := by
      rw [queryAsking_plain hc]
      exact query_ok hd
    rw [Run.decode, run_bind_of_ok hquery]
    rfl
  rcases candidates_float hback with ⟨n, rest, hrest, hx⟩ | ⟨y, rest, hrest, hx⟩
  · refine ⟨(Double.ofInt n.val).toSingle.toDouble, ?_, ?_⟩
    · rw [hrest, firstAccepted_of_refused hrefused, firstAccepted_of_accepted (hdecode rfl rfl) rfl]
      rfl
    · rcases hx with rfl | ⟨rfl, hn⟩
      · rw [hsingle]
        exact .refl _
      · rw [hn, Double.toSingle_zero]
        exact .inl Double.eq_negative_zero
  · refine ⟨y.toSingle.toDouble, ?_, ?_⟩
    · rw [hrest, firstAccepted_of_refused hrefused, firstAccepted_of_accepted (hdecode rfl rfl) rfl]
      rfl
    · rcases hx with rfl | ⟨hx, -, hy⟩
      · rw [hsingle]
        exact .refl _
      · exact .inr ⟨hx, hy⟩

theorem firstAccepted_device {raw : RawDevice} {d : Device} (hd : Device.ofRaw raw = .ok d) :
    firstAccepted .device (candidates d.toText) s v = ((.ok (.device raw), s), v) := by
  obtain ⟨middle, hmiddle, hnumbers⟩ := candidates_of_device (Device.parse_toText d)
  have hrefused : ∀ c : Value, (∃ s, c = .text s) ∨ (∃ n, c = .int n) ∨ (∃ y, c = .float y) →
      ∃ cause, Run.decode .device c v = (.error (.error cause), v) := by
    rintro c (⟨s, rfl⟩ | ⟨n, rfl⟩ | ⟨y, rfl⟩)
    all_goals exact ⟨_, query_error rfl⟩
  have hskip : ∀ before : List Value, (∀ c ∈ before, (∃ s, c = .text s) ∨ (∃ n, c = .int n) ∨
      ∃ y, c = .float y) → firstAccepted .device (before ++ [.device d.toRaw]) s v =
        firstAccepted .device [.device d.toRaw] s v := by
    intro before hbefore
    induction before with
    | nil => rfl
    | cons c before ih =>
        obtain ⟨hc, hbefore⟩ := List.forall_mem_cons.mp hbefore
        obtain ⟨cause, hcause⟩ := hrefused c hc
        rw [← ih hbefore]
        cases hrest : before ++ [Value.device d.toRaw] with
        | nil => simp at hrest
        | cons c' rest => rw [List.cons_append, hrest, firstAccepted_of_refused hcause]
  have hdecode : Run.decode .device (.device d.toRaw) v = (.ok d, v) := by
    refine query_ok ?_
    rw [Device.toRaw_of_ofRaw hd]
    show World.deviceOfRaw raw = .ok d
    rw [World.deviceOfRaw, hd]
  rw [hmiddle, hskip (.text d.toText :: middle), firstAccepted_of_accepted hdecode rfl]
  · rw [ValueType.fieldValue, Device.toRaw_of_ofRaw hd]
  · intro c hc
    rcases List.mem_cons.mp hc with rfl | hc
    · exact .inl ⟨_, rfl⟩
    · exact .inr (hnumbers c hc)

/-- The text of a plain value is read as the same value. -/
theorem firstAccepted_of_hasType (htype : w.HasType t x) (hplain : t.acceptsNull = false)
    (htext : AttrText num x text) (hback : ∀ y, x = .float y → y.ReadsBack) :
    ∃ x', firstAccepted t (candidates text) s v = ((.ok x', s), v) ∧
      x.object? = none ∧ x'.object? = none ∧ SameValue x x' := by
  cases t with
  | int k =>
      cases htext with
      | int n => exact ⟨_, firstAccepted_int htype, rfl, rfl, rfl⟩
      | _ => exact htype.elim
  | f32 =>
      cases htext with
      | float x =>
          obtain ⟨y, hy, hsame⟩ := firstAccepted_f32 htype (hback x rfl)
          exact ⟨_, hy, rfl, rfl, hsame⟩
      | _ => exact htype.elim
  | f64 =>
      cases htext with
      | float x =>
          obtain ⟨y, hy, hsame⟩ := firstAccepted_f64 (hback x rfl)
          exact ⟨_, hy, rfl, rfl, hsame⟩
      | _ => exact htype.elim
  | bool =>
      cases htext with
      | bool b => exact ⟨_, firstAccepted_bool b, rfl, rfl, rfl⟩
      | _ => exact htype.elim
  | text =>
      cases htext with
      | text s => exact ⟨_, firstAccepted_text _, rfl, rfl, rfl⟩
      | _ => exact htype.elim
  | dataType =>
      cases htext with
      | dataType d => exact ⟨_, firstAccepted_dataType htype, rfl, rfl, rfl⟩
      | _ => exact htype.elim
  | device =>
      cases htext with
      | device known => exact ⟨_, firstAccepted_device known, rfl, rfl, rfl⟩
      | _ => exact htype.elim
  | ref | option => cases hplain
  | _ => cases htext <;> exact htype.elim

end Loading

end ObjectRuntime
