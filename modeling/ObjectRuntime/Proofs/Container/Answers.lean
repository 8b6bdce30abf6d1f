import ObjectRuntime.Proofs.Container.Readiness
set_option autoImplicit false

/-!
# Questions find out what is settled

In a world that is ready every question has an answer, and the answer is the one of the world in
which all registered classes have been looked up (`World.recalled`): how a reference travels, and
what a check against a static type finds.
-/

namespace ObjectRuntime

open ObjectClass (Vocabulary)
open Run (Advances Quiet travelClasses)
open World (AgreeUntil Continues Ready Reaches)

variable {κ β γ : Type} {P : κ → Prop} {w w' w₁ : World κ} {cs : List ObjectClass}
  {others held : List ObjId} {a : ObjId} {c : ObjectClass} {r : Ref} {t key value : RefType}

namespace World

/-! ## Classes that have been asked for -/

/-- One step of an answer: the class has the members that it has anyway, and either the object is
one of them or the next classes have been asked for as well. -/
theorem Answered.step {ds : List ObjectClass} (h : w.Answered a (c :: ds))
    (hregular : w.types.Regular) :
    w.isInstance a c = w.recalled.isInstance a c ∧
      (w.recalled.isInstance a c = true ∨ w.Answered a ds) := by
  obtain ⟨first, hfirst, hrest⟩ := h
  have hsame := isInstance_eq_recalled hregular hfirst a
  refine ⟨hsame, hrest.imp_left fun hmember => ?_⟩
  rw [← hsame, isInstance_of_classIndex? hfirst, hmember]

/-- An object that has been asked for the classes that tell how it travels does so. -/
theorem Answered.classify (h : w.Answered a travelClasses) (hregular : w.types.Regular)
    (moved : Bool) : w.classify a moved = w.recalled.classify a moved := by
  obtain ⟨htensor, h | h⟩ := h.step hregular
  · simp only [World.classify, htensor, h, if_true]
  obtain ⟨hmodule, h | h⟩ := h.step hregular
  · simp only [World.classify, htensor, hmodule, h, if_true]
  obtain ⟨hfunction, h | h⟩ := h.step hregular
  · simp only [World.classify, htensor, hmodule, hfunction, h, if_true]
  have hboxed : w.boxed? a = w.recalled.boxed? a := by
    have hpayload : w.recalled.payload? a = w.payload? a := rfl
    obtain ⟨hbool, h | h⟩ := h.step hregular
    · simp only [boxed?, hbool, h, if_true, hpayload]
    obtain ⟨hint, h | h⟩ := h.step hregular
    · simp only [boxed?, hbool, hint, h, if_true, hpayload]
    obtain ⟨hfloat, -⟩ := h.step hregular
    simp only [boxed?, hbool, hint, hfloat, hpayload]
  simp only [World.classify, htensor, hmodule, hfunction, hboxed]

namespace Ready

variable (h : Ready P cs others held w) (hcs : Vocabulary cs)
include h hcs

/-- Whoever is asked for classes of the vocabulary answers. -/
theorem askClasses {ds : List ObjectClass} (hds : ∀ c ∈ ds, c ∈ cs) (a : ObjId) :
    ∃ w₁, Run.askClasses a ds w = (.ok (), w₁) ∧ w₁.Answered a ds := by
  obtain ⟨w₁, hask, -⟩ :=
    Run.askClasses_of_serves hcs.rightful h.equipped.serves (fun c hc => .inr (hds c hc)) a
  have hright : ∀ c ∈ ds, c.Rightful := fun c hc => hcs.rightful c (hds c hc)
  exact ⟨w₁, hask, (Run.asked_of_askClasses h.regular hright hask).2⟩

/-- A class of the vocabulary is found. -/
theorem touch (hc : c ∈ cs) :
    ∃ first w₁, Run.touch c w = (.ok first, w₁) ∧ w₁.types.classIndex? c = some first := by
  obtain ⟨first, w₁, htouch, -⟩ := Run.touch_of_serves hcs.rightful h.equipped.serves (.inr hc)
  exact ⟨first, w₁, htouch, Run.known_of_touch htouch⟩

/-- A key is asked how it is compared. -/
theorem askKey (r : Ref) :
    ∃ w₁, Run.askKey r w = (.ok (), w₁) ∧ Ready P cs others held w₁ ∧ w.Continues cs others w₁ := by
  obtain ⟨w₁, hask⟩ : ∃ w₁, Run.askKey r w = (.ok (), w₁) := by
    cases r with
    | none => exact ⟨w, rfl⟩
    | some a =>
        obtain ⟨w₁, hask, -⟩ := h.askClasses hcs (Run.covered_string hcs.covers) a
        exact ⟨w₁, hask⟩
  exact ⟨w₁, hask, h.quiet hcs (Run.quiet_askKey r) (Run.advances_askKey hcs.covers r) hask⟩

/-! ## How references travel -/

/-- A reference travels as was settled. -/
theorem travel (hr : w.Reaches others r) :
    ∃ w₁, Run.travel r false w = (.ok (w.recalled.classifyRef r false), w₁) := by
  cases r with
  | none => exact ⟨w, rfl⟩
  | some a =>
      have htravel := Run.covered_travelClasses hcs.covers
      obtain ⟨w₁, hask, hanswered⟩ := h.askClasses hcs htravel a
      obtain ⟨h₁, hcontinues⟩ := h.quiet hcs (Run.quiet_askClasses a _)
        (Run.advances_askClasses a htravel) hask
      have hclassify : w₁.classify a false = w.recalled.classify a false :=
        (hanswered.classify h₁.regular false).trans
          (hcontinues.resembles.classify hcs (hr a rfl) false)
      refine ⟨w₁, ?_⟩
      rw [Run.travel, World.classifyRef, ← hclassify]
      exact run_bind_of_ok hask

end Ready

end World

/-! ## What a check finds -/

namespace Run

/-- Asks for the classes that the check of an entry looks at, its key first. -/
def askEntry (key value : RefType) (e : Ref × Ref) : Run κ Unit := do
  askType key e.1
  if ((← get).mismatch? key e.1).isNone then askType value e.2

theorem quiet_askEntry (key value : RefType) (e : Ref × Ref) :
    Quiet (askEntry key value e : Run κ Unit) := by
  refine (quiet_askType key e.1).bind fun _ => quiet_get fun w => ?_
  split
  · exact quiet_askType value e.2
  · exact quiet_pure ()

theorem advances_askEntry {S : ObjectClass → Prop} (hS : ObjectClass.Covers S)
    (hkey : key.Within S) (hvalue : value.Within S) (e : Ref × Ref) :
    Advances S (askEntry key value e : Run κ Unit) := by
  refine (advances_askType hS hkey e.1).bind fun _ => advances_get fun w => ?_
  split
  · exact advances_askType hS hvalue e.2
  · exact advances_pure ()

/-- Things are asked about one after another, up to the first that does not pass: the check finds
the same as it would if all had been asked. -/
theorem askWhile_agrees {ask : β → Run κ Unit} {passes : World κ → β → Bool}
    (check : World κ → β → Option γ) (good : β → Option γ) (hcs : Vocabulary cs)
    (hquiet : ∀ b, Quiet (ask b)) (hadvances : ∀ b, Advances (· ∈ cs) (ask b))
    (hpasses : ∀ w b, passes w b = (check w b).isNone) :
    ∀ {bs : List β} {w : World κ}, Ready P cs others held w →
      (∀ b ∈ bs, ∀ w₁, Ready P cs others held w₁ → w.Continues cs others w₁ →
        ∃ w₂, ask b w₁ = (.ok (), w₂) ∧ check w₂ b = good b) →
      (∀ b ∈ bs, ∀ w₁ w₂, Ready P cs others held w₁ → w.Continues cs others w₁ →
        w₁.Continues cs others w₂ → check w₁ b = none → check w₂ b = none) →
      ∃ w', askWhile ask passes bs w = (.ok (), w') ∧ AgreeUntil (check w') good bs
  | [], w, _, _, _ => ⟨w, rfl, trivial⟩
  | b :: bs, w, h, hask, hlasts => by
      obtain ⟨w₁, hrun, hcheck⟩ := hask b List.mem_cons_self w h (.refl h.regular cs others)
      obtain ⟨h₁, hcontinues⟩ := h.quiet hcs (hquiet b) (hadvances b) hrun
      rw [askWhile, run_bind_of_ok hrun, run_get_bind, hpasses]
      cases hgood : good b with
      | some m =>
          rw [hcheck, hgood]
          refine ⟨w₁, rfl, hcheck, fun hnone => ?_⟩
          cases hgood.symm.trans hnone
      | none =>
          have hnone : check w₁ b = none := hcheck.trans hgood
          rw [hnone]
          obtain ⟨w', hrest, hagree⟩ := askWhile_agrees check good hcs hquiet hadvances hpasses h₁
            (fun b' hb' w₂ h₂ hcontinues₂ =>
              hask b' (List.mem_cons_of_mem b hb') w₂ h₂ (hcontinues.trans hcontinues₂))
            (fun b' hb' w₂ w₃ h₂ hcontinues₂ =>
              hlasts b' (List.mem_cons_of_mem b hb') w₂ w₃ h₂ (hcontinues.trans hcontinues₂))
          refine ⟨w', hrest, ?_, fun _ => hagree⟩
          obtain ⟨-, hcontinues'⟩ := h₁.quiet hcs (quiet_askWhile hquiet passes bs)
            (advances_askWhile hadvances passes bs) hrest
          rw [hgood, hlasts b List.mem_cons_self w₁ w' h₁ hcontinues hcontinues' hnone]

end Run

namespace World

/-- What passes goes on passing. -/
theorem Continues.passes (h : w.Continues cs others w') (hready : Ready P cs others held w)
    (hr : w.Reaches others r) (hcheck : w.mismatch? t r = none) : w'.mismatch? t r = none :=
  h.proceeds.checked hready.balanced hready.among hr hcheck

/-- An entry is found as it was settled. -/
theorem Resembles.entryMismatch? {u : World κ} {e : Ref × Ref} (h : Resembles cs others w u)
    (ht : (RefType.map key value).Within (· ∈ cs)) (hk : w.Reaches others e.1)
    (hv : w.Reaches others e.2) : u.entryMismatch? key value e = w.entryMismatch? key value e := by
  simp only [World.entryMismatch?, h.mismatch? ht.1 hk, h.mismatch? ht.2 hv]

/-- In every world that is ready a program can ask about references of the type, and then a check
finds what was settled. -/
def Answering (P : κ → Prop) (cs : List ObjectClass) (others : List ObjId) (t : RefType) : Prop :=
  ∀ {w : World κ} {held : List ObjId} {r : Ref}, Ready P cs others held w → w.Reaches others r →
    ∃ w₁, Run.askType t r w = (.ok (), w₁) ∧ w₁.mismatch? t r = w.recalled.mismatch? t r

namespace Ready

variable (h : Ready P cs others held w) (hcs : Vocabulary cs)
include h hcs

/-- An entry is asked about, its value only if its key passes. -/
theorem askEntry {e : Ref × Ref} (ht : (RefType.map key value).Within (· ∈ cs))
    (hkey : Answering P cs others key) (hvalue : Answering P cs others value)
    (hk : w.Reaches others e.1) (hv : w.Reaches others e.2) :
    ∃ w₁, Run.askEntry key value e w = (.ok (), w₁) ∧
      w₁.entryMismatch? key value e = w.recalled.entryMismatch? key value e := by
  obtain ⟨w₁, hask, hfound⟩ := hkey h hk
  obtain ⟨h₁, hcontinues⟩ := h.quiet hcs (Run.quiet_askType key e.1)
    (Run.advances_askType hcs.covers ht.1 e.1) hask
  rw [Run.askEntry, run_bind_of_ok hask, run_get_bind]
  cases hcheck : w₁.mismatch? key e.1 with
  | some m =>
      refine ⟨w₁, rfl, ?_⟩
      simp only [World.entryMismatch?, ← hfound, hcheck]
  | none =>
      obtain ⟨w₂, hask₂, hfound₂⟩ := hvalue h₁ (hcontinues.reaches hv)
      obtain ⟨-, hcontinues₂⟩ := h₁.quiet hcs (Run.quiet_askType value e.2)
        (Run.advances_askType hcs.covers ht.2 e.2) hask₂
      have hstill := hcontinues₂.passes h₁ (hcontinues.reaches hk) hcheck
      refine ⟨w₂, hask₂, ?_⟩
      simp only [World.entryMismatch?, ← hfound, hcheck, hstill, hfound₂,
        hcontinues.resembles.mismatch? ht.2 hv]

theorem askType_named (name : String) (hc : c ∈ cs) (ha : w.heap.Reachable others a) :
    ∃ w₁, Run.askType (.named name c) (some a) w = (.ok (), w₁) ∧
      w₁.mismatch? (.named name c) (some a) = w.recalled.mismatch? (.named name c) (some a) := by
  have hclass := List.forall_mem_singleton.mpr hc
  obtain ⟨w₁, hask, hanswered⟩ := h.askClasses hcs hclass a
  obtain ⟨h₁, hcontinues⟩ := h.quiet hcs (Run.quiet_askClasses a _)
    (Run.advances_askClasses a hclass) hask
  refine ⟨w₁, hask, ?_⟩
  have hreach : w.Reaches others (some a) := fun _ hx => Option.some.inj hx ▸ ha
  have hwithin : (RefType.named name c).Within (· ∈ cs) := hc
  have hkey : w₁.recalled.typeKey a = w₁.typeKey a := rfl
  rw [← hcontinues.resembles.mismatch? hwithin hreach]
  simp only [World.mismatch?, (hanswered.step h₁.regular).1, hkey]

/-- The elements of an array are asked about up to the first that does not pass. -/
theorem askType_array {elem : RefType} (ht : elem.Within (· ∈ cs))
    (helem : Answering P cs others elem) (ha : w.heap.Reachable others a) :
    ∃ w₁, Run.askType (.array elem) (some a) w = (.ok (), w₁) ∧
      w₁.mismatch? (.array elem) (some a) = w.recalled.mismatch? (.array elem) (some a) := by
  have hreach : ∀ e ∈ w.elements (some a), w.Reaches others e :=
    fun e he x hx => Run.reachable_element ha he hx
  have harray := List.forall_mem_singleton.mpr (hcs.builtins .array (by decide))
  obtain ⟨w₁, hask, -⟩ := h.askClasses hcs harray a
  obtain ⟨h₁, hcontinues⟩ := h.quiet hcs (Run.quiet_askClasses a _)
    (Run.advances_askClasses a harray) hask
  obtain ⟨w', hwhile, hagree⟩ := Run.askWhile_agrees
    (fun w e => w.mismatch? elem e) (w.recalled.mismatch? elem) hcs
    (Run.quiet_askType elem) (Run.advances_askType hcs.covers ht)
    (fun w e => show (w.mismatch? elem e).isNone = _ from rfl) h₁
    (fun e he w₂ h₂ hcontinues₂ => by
      have hall := hcontinues.trans hcontinues₂
      obtain ⟨w₃, hrun, hcheck⟩ := helem h₂ (hall.reaches (hreach e he))
      exact ⟨w₃, hrun, hcheck.trans (hall.resembles.mismatch? ht (hreach e he))⟩)
    (fun e he w₂ w₃ h₂ hcontinues₂ hcontinues₃ =>
      hcontinues₃.passes h₂ ((hcontinues.trans hcontinues₂).reaches (hreach e he)))
  have hrun : Run.askType (.array elem) (some a) w = (.ok (), w') := by
    rw [Run.askType, run_bind_of_ok hask, run_get_bind, hcontinues.elements ha]
    exact hwhile
  obtain ⟨-, hall⟩ := h.quiet hcs (Run.quiet_askType _ _)
    (Run.advances_askType hcs.covers (t := .array elem) ht _) hrun
  exact ⟨w', hrun, mismatch?_array_congr (w := w.recalled) (hall.resembles.payload a ha)
    (hall.resembles.key a ha) hagree⟩

/-- So are the entries of a map. -/
theorem askType_map (ht : (RefType.map key value).Within (· ∈ cs))
    (hkey : Answering P cs others key) (hvalue : Answering P cs others value)
    (ha : w.heap.Reachable others a) :
    ∃ w₁, Run.askType (.map key value) (some a) w = (.ok (), w₁) ∧
      w₁.mismatch? (.map key value) (some a) = w.recalled.mismatch? (.map key value) (some a) := by
  have hreach : ∀ e ∈ w.entries (some a), w.Reaches others e.1 ∧ w.Reaches others e.2 :=
    fun e he => ⟨fun x hx => Run.reachable_entry ha he (.inl hx),
      fun x hx => Run.reachable_entry ha he (.inr hx)⟩
  have hmap := List.forall_mem_singleton.mpr (hcs.builtins .map (by decide))
  obtain ⟨w₁, hask, -⟩ := h.askClasses hcs hmap a
  obtain ⟨h₁, hcontinues⟩ := h.quiet hcs (Run.quiet_askClasses a _)
    (Run.advances_askClasses a hmap) hask
  obtain ⟨w', hwhile, hagree⟩ := Run.askWhile_agrees
    (fun w e => w.entryMismatch? key value e) (w.recalled.entryMismatch? key value) hcs
    (Run.quiet_askEntry key value) (Run.advances_askEntry hcs.covers ht.1 ht.2)
    (fun w e => (w.isNone_entryMismatch? key value e).symm) h₁
    (fun e he w₂ h₂ hcontinues₂ => by
      have hall := hcontinues.trans hcontinues₂
      obtain ⟨hk, hv⟩ := hreach e he
      obtain ⟨w₃, hrun, hcheck⟩ :=
        h₂.askEntry hcs ht hkey hvalue (hall.reaches hk) (hall.reaches hv)
      exact ⟨w₃, hrun, hcheck.trans (hall.resembles.entryMismatch? ht hk hv)⟩)
    (fun e he w₂ w₃ h₂ hcontinues₂ hcontinues₃ hnone => by
      have hall := hcontinues.trans hcontinues₂
      obtain ⟨hkeyPasses, hvaluePasses⟩ := entryMismatch?_eq_none.mp hnone
      exact entryMismatch?_eq_none.mpr
        ⟨hcontinues₃.passes h₂ (hall.reaches (hreach e he).1) hkeyPasses,
          hcontinues₃.passes h₂ (hall.reaches (hreach e he).2) hvaluePasses⟩)
  have hrun : Run.askType (.map key value) (some a) w = (.ok (), w') := by
    rw [Run.askType, run_bind_of_ok hask, run_get_bind, hcontinues.entries ha]
    exact hwhile
  obtain ⟨-, hall⟩ := h.quiet hcs (Run.quiet_askType _ _)
    (Run.advances_askType hcs.covers (t := .map key value) ht _) hrun
  exact ⟨w', hrun, mismatch?_map_congr (w := w.recalled) (hall.resembles.payload a ha)
    (hall.resembles.key a ha) hagree⟩

end Ready

/-- Once a program has asked, a check finds what was settled. -/
theorem answering (hcs : Vocabulary cs) (ht : t.Within (· ∈ cs)) : Answering P cs others t := by
  induction t with
  | named name cls =>
      intro w held r h hr
      cases r with
      | none => exact ⟨w, rfl, rfl⟩
      | some a => exact h.askType_named hcs name ht (hr a rfl)
  | array elem ih =>
      intro w held r h hr
      cases r with
      | none => exact ⟨w, rfl, rfl⟩
      | some a => exact h.askType_array hcs ht (ih ht) (hr a rfl)
  | map key value ihKey ihValue =>
      intro w held r h hr
      cases r with
      | none => exact ⟨w, rfl, rfl⟩
      | some a => exact h.askType_map hcs ht (ihKey ht.1) (ihValue ht.2) (hr a rfl)

/-- What passes the check is what a downcast gives. -/
theorem Ready.downcast_iff (h : Ready P cs others held w) (hcs : Vocabulary cs)
    (ht : t.Within (· ∈ cs)) (hr : w.Reaches others r) :
    (∃ w₁, Run.downcast t r w = (.ok r, w₁)) ↔ w.recalled.mismatch? t r = none := by
  obtain ⟨w₁, hask, hfound⟩ := answering hcs ht h hr
  rw [Run.downcast, run_bind_of_ok hask, Run.query, run_get_bind, World.downcast, hfound]
  cases w.recalled.mismatch? t r with
  | none => exact ⟨fun _ => rfl, fun _ => ⟨w₁, rfl⟩⟩
  | some m =>
      constructor
      · rintro ⟨w₂, hrun⟩
        cases hrun
      · intro hnone
        cases hnone

end World

end ObjectRuntime
