import ObjectRuntime.Proofs.Container.Checked
set_option autoImplicit false

/-!
# Reading containers that pass

Asking whether a reference is of a type changes nothing if it is: the classes that the check looks at
are known already.  So reading a container whose elements pass the check always gives them.
-/

namespace ObjectRuntime

open World (Balanced)

variable {κ : Type} {P : κ → Prop} {w w₁ : World κ} {held : List ObjId} {r k v : Ref}
  {t elem key value : RefType}

/-- Asking about a reference that passes changes nothing. -/
theorem World.Balanced.passes (hb : w.Balanced P held) (h : w.mismatch? t r = none) :
    w.Passes t r := by
  refine ⟨?_, h⟩
  induction t generalizing r with
  | named name cls =>
      cases r with
      | none => rfl
      | some a =>
          exact Run.askClasses_of_answered (World.answered_of_isInstance (World.isInstance_of_named h))
  | array elem ih =>
      cases r with
      | none => rfl
      | some a =>
          obtain ⟨elems, hcontent⟩ := World.array_of_checked h
          obtain ⟨first, hfirst⟩ := hb.allowed hcontent
          have hknown : w.Answered a [.array] := ⟨first, hfirst, .inr trivial⟩
          have helems := World.elements_checked h
          rw [Run.askType, run_bind_of_ok (Run.askClasses_of_answered hknown), run_get_bind]
          exact Run.askWhile_of_passes fun e he =>
            ⟨ih (helems e he), Option.isNone_iff_eq_none.mpr (helems e he)⟩
  | map key value ihKey ihValue =>
      cases r with
      | none => rfl
      | some a =>
          obtain ⟨entries, hcontent⟩ := World.map_of_checked h
          obtain ⟨first, hfirst⟩ := hb.allowed hcontent
          have hknown : w.Answered a [.map] := ⟨first, hfirst, .inr trivial⟩
          have hentries := World.entries_checked h
          rw [Run.askType, run_bind_of_ok (Run.askClasses_of_answered hknown), run_get_bind]
          refine Run.askWhile_of_passes fun e he => ?_
          obtain ⟨hkey, hvalue⟩ := hentries e he
          refine ⟨?_, by simp [hkey, hvalue]⟩
          rw [run_bind_of_ok (ihKey hkey), run_get_bind, hkey]
          exact ihValue hvalue

namespace Run

/-- A reference that passes is passed on. -/
theorem downcast_of_passes (h : w.Passes t r) : downcast t r w = (.ok r, w) := by
  have hquery : query (·.downcast t r) w = (.ok r, w) := by
    simp only [query, run_get_bind, World.downcast, h.2]
    rfl
  rw [downcast, run_bind_of_ok h.1, hquery]

/-- A class that cannot be had is a broken promise and never an error. -/
theorem touch_ne_error (c : ObjectClass) (cause : Error) :
    touch c w ≠ (.error (.error cause), w₁) := by
  intro h
  have htable : (w.types.touch c).1 = .error (.error cause) := congrArg Prod.fst h
  cases c with
  | root => cases htable
  | derived decl base =>
      simp only [TypeTable.touch] at htable
      split at htable
      · cases htable
      · split at htable
        · cases htable
        · cases htable
        · rename_i hnot _
          cases htable
          exact hnot cause rfl

/-- Asking how a key is compared fails with a broken promise only. -/
theorem askKey_ne_error (k : Ref) (cause : Error) :
    askKey k w ≠ (.error (.error cause), w₁) := by
  cases k with
  | none => exact fun h => nomatch h
  | some id =>
      intro h
      rcases htouch : touch .string w with ⟨fault | first, w₂⟩
      · rw [askKey, askClasses, run_bind_of_error htouch] at h
        cases h
        exact touch_ne_error _ cause htouch
      · rw [askKey, askClasses, run_bind_of_ok htouch, run_get_bind] at h
        split at h <;> cases h

end Run

/-! ## Arrays -/

namespace Arr

/-- What a reference to an array promises: its elements pass the check, an index in range has an
element, and all elements can be had. -/
structure WellTyped (w : World κ) (elem : RefType) (r : Ref) : Prop where
  elements : ∀ e ∈ w.elements r, w.mismatch? elem e = none
  get : ∀ {index : Int} {i : Nat}, position (w.elements r).length index = .ok i →
    ∃ w', Arr.get elem r index w = (.ok (w.elements r)[i]?.join, w')
  items : Arr.items elem r w = (.ok (w.elements r), w)

theorem wellTyped_of_checked (hb : w.Balanced P held) (h : w.mismatch? (.array elem) r = none) :
    WellTyped w elem r where
  elements := World.elements_checked h
  get := by
    intro index i hi
    have hlt := (position_eq_ok hi).1
    have hmem : (w.elements r)[i]?.join ∈ w.elements r := by
      rw [List.getElem?_eq_getElem hlt, Option.join_some]
      exact List.getElem_mem hlt
    have hpasses := hb.passes (World.elements_checked h _ hmem)
    rw [Arr.get, run_get_bind, run_bind_of_ok (Run.ofExcept_eq_ok.mpr ⟨hi, rfl⟩),
      run_bind_of_ok (Run.downcast_of_passes hpasses)]
    cases (w.elements r)[i]?.join with
    | none => exact ⟨_, rfl⟩
    | some a => exact ⟨_, rfl⟩
  items := by
    rw [items, run_bind_of_ok (hb.passes h).1, run_get_bind,
      iterate_of_checked (World.elements_checked h)]
    rfl

end Arr

/-! ## Maps -/

namespace Dict

/-- What a reference to a map promises: its entries pass the checks, a key that is present has a
value, unless the class of strings cannot be had, and all entries can be had. -/
structure WellTyped (w : World κ) (key value : RefType) (r : Ref) : Prop where
  entries : ∀ e ∈ w.entries r, w.mismatch? key e.1 = none ∧ w.mismatch? value e.2 = none
  get : ∀ {k v : Ref}, find? w r k = some v →
    (∃ w', Dict.get value r k w = (.ok v, w')) ∨
      ∃ cause w', Run.askKey k w = (.error (.panic cause), w') ∧
        Dict.get value r k w = (.error (.panic cause), w')
  items : Dict.items key value r w = (.ok (w.entries r), w)

/-- A value that is found in a map that passes can be read. -/
theorem get_of_checked (hregular : w.types.Regular) (hb : w.Balanced P held)
    (hr : ∀ a, r = some a → a ∈ held) (h : w.mismatch? (.map key value) r = none)
    (hask : Run.askKey k w = (.ok (), w₁)) (hfind : find? w r k = some v) :
    ∃ w', get value r k w = (.ok v, w') := by
  have hheap := (Run.quiet_askKey k w).1
  have hasked : Run.Conserves P w held (fun _ => []) [] (Run.askKey k) :=
    (Run.quiet_askKey k).conserves [] hb
  rw [hask] at hheap
  obtain ⟨hproceeds, hb₁⟩ := hasked.proceeds (Run.advances_askKey Run.covers_rightful k) hregular hask
  have hfind₁ : find? w₁ r k = some v := by
    rwa [find?, entries_of_heap hheap, sameKey_of_heap hheap, ← find?]
  have h₁ := hproceeds.checked_of_mem hb (fun _ hx => hx) hr h
  obtain ⟨e, he, rfl⟩ := mem_of_find? hfind₁
  have hpasses := hb₁.passes (World.entries_checked h₁ e he).2
  rw [get, run_bind_of_ok hask, run_get_bind, hfind₁]
  dsimp only
  rw [run_bind_of_ok (Run.downcast_of_passes hpasses)]
  cases e.2 with
  | none => exact ⟨_, rfl⟩
  | some a => exact ⟨_, rfl⟩

theorem wellTyped_of_checked (hregular : w.types.Regular) (hb : w.Balanced P held)
    (hr : ∀ a, r = some a → a ∈ held) (h : w.mismatch? (.map key value) r = none) :
    WellTyped w key value r where
  entries := World.entries_checked h
  get := by
    intro k v hfind
    rcases hask : Run.askKey k w with ⟨(cause | cause) | _, w₁⟩
    · exact absurd hask (Run.askKey_ne_error k cause)
    · refine .inr ⟨cause, w₁, rfl, ?_⟩
      rw [get, run_bind_of_error hask]
    · exact .inl (get_of_checked hregular hb hr h hask hfind)
  items := by
    have hentries := World.entries_checked h
    have hask : askItems key value r w = (.ok (), w) := by
      rw [askItems, run_get_bind]
      refine Run.askWhile_of_passes fun e he => ?_
      obtain ⟨hkey, hvalue⟩ := hentries e he
      exact ⟨(run_bind_of_ok (hb.passes hkey).1).trans (hb.passes hvalue).1, by simp [hkey, hvalue]⟩
    rw [items_eq, run_bind_of_ok hask, run_get_bind, iterate_of_checked hentries]
    rfl

end Dict

end ObjectRuntime
