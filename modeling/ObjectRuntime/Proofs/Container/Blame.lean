import Mathlib.Order.Bounds.Basic
import ObjectRuntime.Proofs.Container.Conversion
set_option autoImplicit false

/-!
# Which element a failed conversion reports

A conversion to a type of arrays reports what the check has found before any element was converted:
the first element that is not of the type as it stands.  It fails because of the first element that
cannot be converted, which may come later.
-/

namespace ObjectRuntime

open ObjectClass (Vocabulary vocabulary_builtins)
open Run (Borrowed)
open World (Parts Ready)
open Views (PartConverts PartPasses passAs)

variable {κ : Type} {P : κ → Prop} {w w' : World κ} {cs : List ObjectClass}
  {others held : List ObjId} {a : ObjId} {v : Value} {t elem : RefType} {elems : List Ref}
  {parts : List (RefType × Ref)} {i start : Nat} {m : String} {fault : Fault}

/-! ## First failures -/

/-- The places of the elements that fail. -/
def failures (fails : Ref → Prop) (elems : List Ref) : Set Nat :=
  {k | ∃ e, elems[k]? = some e ∧ fails e}

theorem exists_isLeast_failures {fails : Ref → Prop} (h : ∃ e ∈ elems, fails e) :
    ∃ j, IsLeast (failures fails elems) j := by
  classical
  have hsome : ∃ k, k ∈ failures fails elems := by
    obtain ⟨e, he, hfails⟩ := h
    obtain ⟨k, hk⟩ := List.mem_iff_getElem?.mp he
    exact ⟨k, e, hk, hfails⟩
  exact ⟨Nat.find hsome, Nat.find_spec hsome, fun _ hk => Nat.find_min' hsome hk⟩

namespace World

/-- The first mismatch is that of the first element that has one. -/
theorem firstMismatch_eq_some {check : Ref → Option String}
    (h : firstMismatch check start elems = some (i, m)) :
    ∃ k, i = start + k ∧ (∃ e, elems[k]? = some e ∧ check e = some m) ∧
      ∀ l < k, ∀ e, elems[l]? = some e → check e = none := by
  induction elems generalizing start with
  | nil => cases h
  | cons e elems ih =>
      rw [firstMismatch] at h
      cases hcheck : check e with
      | some m' =>
          rw [hcheck] at h
          cases h
          exact ⟨0, rfl, ⟨e, rfl, hcheck⟩, fun _ hl => absurd hl (Nat.not_lt_zero _)⟩
      | none =>
          rw [hcheck] at h
          obtain ⟨k, rfl, hfound, hbefore⟩ := ih h
          refine ⟨k + 1, by omega, hfound, fun l hl e' he' => ?_⟩
          cases l with
          | zero =>
              cases he'
              exact hcheck
          | succ l => exact hbefore l (by omega) e' he'

theorem isLeast_firstMismatch {check : Ref → Option String}
    (h : firstMismatch check 0 elems = some (i, m)) :
    IsLeast (failures (fun e => check e ≠ none) elems) i ∧
      ∃ e, elems[i]? = some e ∧ check e = some m := by
  obtain ⟨k, hk, ⟨e, he, hm⟩, hbefore⟩ := firstMismatch_eq_some h
  rw [Nat.zero_add] at hk
  subst hk
  refine ⟨⟨⟨e, he, by simp [hm]⟩, ?_⟩, e, he, hm⟩
  rintro l ⟨e', he', hfails⟩
  by_contra hlt
  exact hfails (hbefore l (Nat.lt_of_not_le hlt) e' he')

end World

/-! ## What is reported -/

/-- A renewal that fails reports the mismatch that it was to do away with. -/
theorem Run.renew_eq_error {rebuild : ObjId → Run κ ObjId} {cause : Error}
    (hrun : renew t a m rebuild w = (.error (.error cause), w')) :
    cause = .typeMismatch t.typeName m := by
  rcases hrebuild : rebuild a w with ⟨(cause' | panic) | b, w₁⟩
  · rw [renew_of_error hrebuild] at hrun
    cases hrun
    rfl
  · have hattempt : attempt (rebuild a) w = (.error (.panic panic), w₁) := by
      simp only [attempt, hrebuild]
    rw [renew, run_bind_of_error (releasing_of_error hattempt)] at hrun
    cases hrun
  · rw [renew_of_ok hrebuild] at hrun
    cases hrun

namespace Views

variable (h : Ready P cs others held w) (hcs : Vocabulary cs)
include h hcs

/-- What passes as it stands is converted. -/
theorem PartPasses.converts {p : RefType × Ref} (hpasses : PartPasses w p)
    (ht : p.1.Within (· ∈ cs)) (hr : w.Reaches others p.2) : PartConverts w p := by
  rw [partConverts_iff h hcs ht hr]
  exact h.convertible_of_passes hcs ht hr ((partPasses_iff h hcs ht hr).mp hpasses)

/-- The mismatch of a reference is what a downcast reports. -/
theorem downcast_of_mismatch {t : RefType} {r : Ref} (ht : t.Within (· ∈ cs))
    (hr : w.Reaches others r) (hcheck : w.recalled.mismatch? t r = some m) :
    ∃ w₁, Run.downcast t r w = (.error (.error (.typeMismatch t.typeName m)), w₁) := by
  obtain ⟨w₁, hask, hfound⟩ := World.answering hcs ht h hr
  refine ⟨w₁, ?_⟩
  rw [Run.downcast, run_bind_of_ok hask, Run.query, run_get_bind, World.downcast, hfound, hcheck]
  rfl

/-- A conversion of a container that fails reports the mismatch that the check has found, and some
part is not converted. -/
theorem decodeRef_container_error (ht : t.Within (· ∈ cs)) (hv : Borrowed w others v)
    (ha : v.object? = some a) (hparts : w.Parts t a parts)
    (hrun : Run.decodeRef t v w = (.error fault, w')) :
    (∃ m, w.recalled.mismatch? t (some a) = some m ∧
      fault = .error (.typeMismatch t.typeName m)) ∧ ∃ p ∈ parts, ¬ PartConverts w p := by
  have hcontainer := hparts.isContainer
  constructor
  · -- a conversion does not panic
    obtain ⟨-, r, w₁, hok⟩ | ⟨-, cause, w₁, herror⟩ := World.decisive hcs ht h hv
    · cases hrun.symm.trans hok
    cases hrun.symm.trans herror
    obtain ⟨tag, rfl⟩ := Value.eq_of_object? ha
    obtain ⟨w₂, -, -, hdecode⟩ := h.decodeContainer_object hcs ht hcontainer (hv a rfl) hparts tag
      (Run.rebuildAs t)
    rw [Run.decodeRef_container hcontainer, hdecode] at hrun
    cases hcheck : w.recalled.mismatch? t (some a) with
    | none =>
        rw [hcheck] at hrun
        cases hrun
    | some m =>
        rw [hcheck] at hrun
        exact ⟨m, rfl, congrArg Fault.error (Run.renew_eq_error hrun)⟩
  · by_contra hall
    push Not at hall
    obtain ⟨r, w₁, hok⟩ := (decodeRef_succeeds_iff h hcs ht hcontainer hv).mpr
      (.inr ⟨a, parts, ha, hparts, hall⟩)
    cases hrun.symm.trans hok

/-- The reported index is that of the first element that does not pass as it stands.  It is not
behind the first element that is not converted, and is this one if the reported element is not
converted. -/
theorem decodeRef_array_reports (ht : elem.Within (· ∈ cs)) (hv : Borrowed w others v)
    (ha : v.object? = some a) (hcontent : w.payload? a = some (.array elems))
    (hrun : Run.decodeRef (.array elem) v w = (.error fault, w')) :
    ∃ i m e j,
      fault = .error (.typeMismatch (RefType.array elem).typeName s!"Array[index {i}: {m}]") ∧
      elems[i]? = some e ∧
      (∃ w₁, Run.downcast elem e w = (.error (.error (.typeMismatch elem.typeName m)), w₁)) ∧
      IsLeast (failures (fun e => ¬ PartPasses w (elem, e)) elems) i ∧
      IsLeast (failures (fun e => ¬ PartConverts w (elem, e)) elems) j ∧
      i ≤ j ∧ (i = j ↔ ¬ PartConverts w (elem, e)) := by
  have hwithin : (RefType.array elem).Within (· ∈ cs) := ht
  obtain ⟨⟨report, hreport, rfl⟩, p, hp, hbad⟩ :=
    decodeRef_container_error h hcs hwithin hv ha (.array hcontent) hrun
  rw [World.mismatch?_array (w := w.recalled) hcontent] at hreport
  obtain ⟨⟨i, m⟩, hfirst, rfl⟩ := Option.map_eq_some_iff.mp hreport
  obtain ⟨b, hb, rfl⟩ := List.mem_map.mp hp
  have hfails : ∃ e ∈ elems, ¬ PartConverts w (elem, e) := ⟨b, hb, hbad⟩
  obtain ⟨j, hj⟩ := exists_isLeast_failures hfails
  obtain ⟨hi, e, he, hm⟩ := World.isLeast_firstMismatch hfirst
  have hreach : ∀ {k e}, elems[k]? = some e → w.Reaches others e :=
    fun he => .element (hv a ha) hcontent (List.mem_of_getElem? he)
  have hpasses : failures (fun e => w.recalled.mismatch? elem e ≠ none) elems =
      failures (fun e => ¬ PartPasses w (elem, e)) elems := by
    refine Set.ext fun k => exists_congr fun e => and_congr_right fun he => ?_
    exact not_congr (partPasses_iff h hcs (p := (elem, e)) ht (hreach he)).symm
  rw [hpasses] at hi
  -- what is not converted does not pass either
  have hle : i ≤ j := by
    obtain ⟨e', he', hbad⟩ := hj.1
    exact hi.2 ⟨e', he', fun hgood => hbad (hgood.converts h hcs ht (hreach he'))⟩
  refine ⟨i, m, e, j, rfl, he, downcast_of_mismatch h hcs ht (hreach he) hm, hi, hj, hle, ?_⟩
  constructor
  · rintro rfl
    obtain ⟨e', he', hbad⟩ := hj.1
    cases he.symm.trans he'
    exact hbad
  · exact fun hbad => hle.antisymm (hj.2 ⟨e, he, hbad⟩)

omit h hcs

/-- An array of the boxed integer and the string. -/
def intThenText : World Unit := (Run.create .array (.array [some ⟨1⟩, some ⟨0⟩]) textAndInt).2

theorem ready_intThenText :
    Ready (fun _ => True) (.root :: ObjectClass.builtins) [⟨2⟩] [⟨2⟩] intThenText := by
  have hfills : textAndInt.Fills .array (.array [some ⟨1⟩, some ⟨0⟩]) := World.fills_array _ _
  exact Ready.after_create ready_textAndInt vocabulary_builtins (by decide) (by rfl) hfills
    (by decide +kernel)

/-- What is known of the conversion of the array to one of floating point numbers. -/
theorem intThenText_facts :
    Borrowed intThenText [⟨2⟩] (.object .object ⟨2⟩) ∧
      intThenText.payload? ⟨2⟩ = some (.array [some ⟨1⟩, some ⟨0⟩]) ∧
      PartConverts intThenText (.boxFloat, some ⟨1⟩) ∧
      ∃ fault w', Run.decodeRef (.array .boxFloat) (.object .object ⟨2⟩) intThenText =
        (.error fault, w') := by
  have hv : Borrowed intThenText [⟨2⟩] (.object .object ⟨2⟩) := by
    rintro a ⟨⟩
    exact .of_mem List.mem_cons_self
  have hconverts : (passAs .boxFloat (some ⟨1⟩) intThenText).1.toOption = some (some ⟨3⟩) := by
    decide +kernel
  have hfails : (Run.decodeRef (.array .boxFloat) (.object .object ⟨2⟩)
      intThenText).1.toOption = none := by decide +kernel
  refine ⟨hv, rfl, ⟨_, run_of_toOption hconverts⟩, ?_⟩
  rcases hrun : Run.decodeRef (.array .boxFloat) (.object .object ⟨2⟩) intThenText with
    ⟨fault | r, w'⟩
  · exact ⟨fault, w', rfl⟩
  · rw [hrun] at hfails
    cases hfails

/-- The boxed integer is reported, and a later element is the first that is not converted. -/
theorem decodeRef_array_reports_intThenText :
    ∃ (i : Nat) (m : String) (w' : World Unit) (j : Nat),
      Run.decodeRef (.array .boxFloat) (.object .object ⟨2⟩) intThenText =
        (.error (.error (.typeMismatch (RefType.array .boxFloat).typeName
          s!"Array[index {i}: {m}]")), w') ∧
      IsLeast (failures (fun e => ¬ PartConverts intThenText (.boxFloat, e))
        [some ⟨1⟩, some ⟨0⟩]) j ∧ i < j := by
  obtain ⟨hv, hcontent, hconverts, fault, w', hrun⟩ := intThenText_facts
  have hwithin : RefType.boxFloat.Within (· ∈ .root :: ObjectClass.builtins) :=
    show ObjectClass.boxFloat ∈ _ by decide
  obtain ⟨i, m, e, j, rfl, he, -, hi, hj, hle, hsame⟩ :=
    decodeRef_array_reports ready_intThenText vocabulary_builtins hwithin hv rfl hcontent hrun
  have hfails : ¬ PartPasses intThenText (.boxFloat, some ⟨1⟩) := by
    rintro ⟨w₁, hpasses⟩
    have hresult : (Run.downcast .boxFloat (some ⟨1⟩) intThenText).1.toOption = none := by
      decide +kernel
    rw [hpasses] at hresult
    cases hresult
  obtain rfl : i = 0 := Nat.le_zero.mp (hi.2 ⟨some ⟨1⟩, rfl, hfails⟩)
  cases he
  exact ⟨0, m, w', j, hrun, hj, hle.lt_of_ne fun hzero => hsame.mp hzero hconverts⟩

/-- So the reported element need not be one that is not converted. -/
theorem intThenText_reports_converted :
    ∃ w', Run.decodeRef (.array .boxFloat) (.object .object ⟨2⟩) intThenText =
        (.error (.error (.typeMismatch "Array[runtime.BoxFloat]"
          "Array[index 0: runtime.BoxInt]")), w') ∧
      ¬ IsLeast (failures (fun e => ¬ PartConverts intThenText (.boxFloat, e))
        [some ⟨1⟩, some ⟨0⟩]) 0 := by
  obtain ⟨hv, hcontent, hconverts, fault, w', hrun⟩ := intThenText_facts
  have hwithin : (RefType.array .boxFloat).Within (· ∈ .root :: ObjectClass.builtins) :=
    show ObjectClass.boxFloat ∈ _ by decide
  obtain ⟨⟨report, hreport, rfl⟩, -⟩ :=
    decodeRef_container_error ready_intThenText vocabulary_builtins hwithin hv rfl
      (.array hcontent) hrun
  have hfound : intThenText.recalled.mismatch? (.array .boxFloat) (some ⟨2⟩) =
      some "Array[index 0: runtime.BoxInt]" := by decide +kernel
  obtain rfl := Option.some.inj (hreport.symm.trans hfound)
  refine ⟨w', hrun, fun hleast => ?_⟩
  obtain ⟨e, he, hbad⟩ := hleast.1
  cases he
  exact hbad hconverts

end Views

end ObjectRuntime
