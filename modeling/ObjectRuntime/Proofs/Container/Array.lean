import ObjectRuntime.Container.Array
import ObjectRuntime.Proofs.Container.Unique
set_option autoImplicit false

/-!
# Arrays conserve references

What the operations on arrays do with the references that they are given.  An operation that takes an
array over leaves it to the caller if it fails.
-/

namespace ObjectRuntime

open Run (Conserves IsFresh)
open World (Balanced Since)

variable {κ : Type} {P : κ → Prop} {w w' : World κ} {others : List ObjId} {id : ObjId}
  {r value : Ref} {elems : List Ref}

/-- A reference to an array, or to nothing. -/
def World.IsArray (w : World κ) (r : Ref) : Prop :=
  ∀ id, r = some id → ∃ elems, w.payload? id = some (.array elems)

namespace Arr

/-- A new array takes over its elements. -/
theorem conserves_ofList (hb : w.Balanced P (elems.flatMap Option.toList ++ others)) :
    Conserves P w others Option.toList [] (ofList elems) := by
  rw [← Run.reduceOption_eq_flatMap] at hb
  have howned : w.Balanced P ((Payload.array elems : Payload κ).references ++ ([] ++ others)) := hb
  exact (Run.conserves_create [] howned rfl).map fun _ => rfl

/-- An element that is read is the caller's too. -/
theorem conserves_get {elem : RefType} {index : Int} (hb : w.Balanced P others)
    (hr : ∀ id, r = some id → w.heap.Reachable others id) :
    Conserves P w others Option.toList [] (get elem r index) := by
  refine Run.conserves_get ?_
  refine (Run.quiet_ofExcept _).then_conserves [] hb fun i w₁ _ _ hsince₁ hb₁ => ?_
  refine (Run.quiet_downcast _ _).then_conserves [] hb₁ fun e w₂ hrun _ hsince₂ hb₂ => ?_
  refine (Run.conserves_retainRef [] [] hb₂ fun x hx => ?_).bind fun _ w₃ _ _ hb₃ =>
    Run.conserves_pure (by simpa using hb₃)
  rw [Run.eq_of_downcast hrun, Option.join_eq_some_iff] at hx
  have hmem := List.mem_of_getElem? hx
  cases r with
  | none => simp [World.elements] at hmem
  | some a => exact (hsince₁.trans hsince₂).reachable (Run.reachable_element (hr a rfl) hmem rfl)

/-- Elements of the type are all passed on. -/
theorem iterate_of_checked {elem : RefType} (h : ∀ e ∈ w.elements r, w.mismatch? elem e = none) :
    iterate w elem r = .ok (w.elements r) := by
  refine mapM_eq_ok (List.forall₂_same.mpr fun e he => ?_)
  simp only [World.downcast, h e he]

theorem holds_elements (harray : w.IsArray r) : w.Holds r (.array (w.elements r)) := by
  cases r with
  | none => rfl
  | some id =>
      obtain ⟨elems, hcontent⟩ := harray id rfl
      simp [World.Holds, World.elements, hcontent]

/-- The elements of an array whose content is known. -/
theorem elements_of_payload (hcontent : w.payload? id = some (.array elems)) :
    w.elements (some id) = elems := by
  simp [World.elements, hcontent]

/-- Obtaining an array with one owner is what it is for all containers. -/
theorem makeUnique_eq (r : Ref) (w : World κ) :
    makeUnique r w = Run.unique .array (.array (w.elements r)) r w := by
  cases r with
  | none => rfl
  | some a =>
      rw [makeUnique, Run.unique, run_get_bind, run_get_bind]
      split
      · rfl
      · simp only [Run.forM_retainRef]
        rfl

theorem conserves_makeUnique (hb : w.Balanced P (r.toList ++ others)) (harray : w.IsArray r) :
    Conserves P w others (fun id => [id]) r.toList (makeUnique r) :=
  (Run.conserves_unique hb (holds_elements harray) rfl).congr (makeUnique_eq r w)

/-- The caller holds the only reference to an array with the same elements. -/
theorem one_of_makeUnique (hb : w.Balanced P (r.toList ++ others)) (harray : w.IsArray r)
    (hrun : makeUnique r w = (.ok id, w')) :
    w'.heap.count id = 1 ∧ w'.payload? id = some (.array (w.elements r)) :=
  Run.one_of_unique hb (holds_elements harray) rfl (makeUnique_eq r w ▸ hrun)

theorem makeUnique_of_known {first : Nat} (hc : w.types.classIndex? .array = some first) (r : Ref) :
    ∃ id w', makeUnique r w = (.ok id, w') := by
  rw [makeUnique_eq]
  exact Run.unique_of_known hc _ r

/-! ## Changes -/

/-- Appending an element. -/
theorem conserves_push (hb : w.Balanced P (r.toList ++ (value.toList ++ others)))
    (harray : w.IsArray r) : Conserves P w others Option.toList r.toList (push r value) := by
  refine (conserves_makeUnique hb harray).releasingOnFault.bind fun id w₁ hrun _ hb₁ =>
    Run.conserves_get ?_
  obtain ⟨hone, hcontent⟩ :=
    one_of_makeUnique hb harray (Run.releasingOnFault_eq_ok.mp hrun)
  have helems := elements_of_payload hcontent
  have hpushed : Conserves P w₁ others (fun _ => [id]) r.toList (Run.modifyHeap
      (·.setPayload id (.array (w₁.elements (some id) ++ [value])))) := by
    rw [helems]
    refine Run.conserves_setPayload value.toList [] r.toList hb₁ hone hcontent rfl
      (hb₁.allows_array hcontent _) ?_
    simp only [Payload.references, List.reduceOption_append, List.append_nil]
    cases value <;> exact .rfl
  exact hpushed.bind fun _ w₂ _ _ hb₂ => Run.conserves_pure hb₂

theorem position_eq_ok {size i : Nat} {index : Int} (h : position size index = .ok i) :
    i < size ∧ (i : Int) = index := by
  simp only [position] at h
  split at h
  · cases h
    omega
  · cases h

/-- The element that is replaced is left over. -/
theorem reduceOption_set_perm {i : Nat} (hi : i < elems.length) :
    List.Perm ((elems.set i value).reduceOption ++ (elems[i]?.join).toList)
      (elems.reduceOption ++ value.toList) := by
  simp only [Run.reduceOption_eq_flatMap]
  induction elems generalizing i with
  | nil => cases hi
  | cons e elems ih =>
      cases i with
      | zero =>
          simp only [List.set_cons_zero, List.flatMap_cons, List.getElem?_cons_zero, Option.join_some]
          refine List.perm_iff_count.mpr fun x => ?_
          simp only [List.count_append]
          omega
      | succ i =>
          simp only [List.set_cons_succ, List.flatMap_cons, List.getElem?_cons_succ,
            List.append_assoc]
          exact (ih (Nat.lt_of_succ_lt_succ hi)).append_left _

/-- An array with an element is there. -/
theorem exists_of_position {i : Nat} {index : Int}
    (h : position (w.elements r).length index = .ok i) : ∃ a elems, r = some a ∧
      w.payload? a = some (.array elems) := by
  have hlt := (position_eq_ok h).1
  cases r with
  | none => simp [World.elements] at hlt
  | some a =>
      simp only [World.elements, Option.bind_some] at hlt
      split at hlt
      · rename_i elems hcontent
        exact ⟨a, elems, rfl, hcontent⟩
      · cases hlt

/-- Replacing an element.  If there is none the array stays with the caller. -/
theorem conserves_set {index : Int} (hb : w.Balanced P (r.toList ++ (value.toList ++ others)))
    (harray : w.IsArray r) : Conserves P w others Option.toList r.toList (set r index value) := by
  refine Run.conserves_get ?_
  have hposition : Conserves P w others (fun _ => value.toList ++ r.toList) ([] ++ r.toList)
      (Run.releasingOnFault value.toList
        (Run.ofExcept (position (w.elements r).length index) : Run κ Nat)) :=
    ((Run.quiet_ofExcept _).holding _ (hb.perm (List.perm_append_comm_assoc _ _ _))).claim
  refine hposition.bind fun i w₁ hrun _ hb₁ => ?_
  obtain ⟨hi, rfl⟩ := Run.ofExcept_eq_ok.mp (Run.releasingOnFault_eq_ok.mp hrun)
  have hlt := (position_eq_ok hi).1
  have hunique : Conserves P w₁ others (fun id => [id] ++ value.toList) r.toList (makeUnique r) := by
    obtain ⟨a, elems, rfl, hcontent⟩ := exists_of_position hi
    obtain ⟨first, hfirst⟩ := hb.allowed hcontent
    exact (conserves_makeUnique hb harray).claim.of_succeeds (makeUnique_of_known hfirst _) _
  refine hunique.bind fun id w₂ hmake _ hb₂ => Run.conserves_get ?_
  obtain ⟨hone, hcontent⟩ := one_of_makeUnique hb harray hmake
  have helems := elements_of_payload hcontent
  rw [helems]
  have hset : Conserves P w₂ others (fun _ => id :: ((w₁.elements r)[i]?.join).toList) r.toList
      (Run.modifyHeap (·.setPayload id (.array ((w₁.elements r).set i value)))) :=
    Run.conserves_setPayload value.toList _ _ hb₂ hone hcontent rfl
      (hb₂.allows_array hcontent _) (reduceOption_set_perm hlt)
  refine hset.bind fun _ w₃ _ _ hb₃ => ?_
  refine (Run.conserves_releases [id] r.toList ?_).bind fun _ w₄ _ _ hb₄ =>
    Run.conserves_pure hb₄
  exact hb₃.perm List.perm_middle

/-! ## What a change does -/

/-- An array to which an element is appended is the caller's alone when its content changes. -/
theorem push_inv {r' : Ref} (hb : w.Balanced P (r.toList ++ (value.toList ++ others)))
    (harray : w.IsArray r) (hrun : push r value w = (.ok r', w')) :
    ∃ id w₁, r' = some id ∧ makeUnique r w = (.ok id, w₁) ∧
      w' = { w₁ with heap := w₁.heap.setPayload id (.array (w.elements r ++ [value])) } := by
  obtain ⟨id, w₁, hunique, hrest⟩ := run_bind_eq_ok.mp hrun
  have hmake := Run.releasingOnFault_eq_ok.mp hunique
  rw [run_get_bind, elements_of_payload (one_of_makeUnique hb harray hmake).2] at hrest
  cases hrest
  exact ⟨id, w₁, rfl, hmake, rfl⟩

/-- So is one in which an element is replaced, and the old element is given up. -/
theorem set_inv {r' : Ref} {index : Int}
    (hb : w.Balanced P (r.toList ++ (value.toList ++ others))) (harray : w.IsArray r)
    (hrun : set r index value w = (.ok r', w')) :
    ∃ id i w₁, r' = some id ∧ position (w.elements r).length index = .ok i ∧
      makeUnique r w = (.ok id, w₁) ∧
      w' = { w₁ with
        heap := ((w.elements r)[i]?.join).toList.foldl Heap.release
          (w₁.heap.setPayload id (.array ((w.elements r).set i value))) } := by
  rw [set, run_get_bind] at hrun
  obtain ⟨i, w₀, hposition, hrest⟩ := run_bind_eq_ok.mp hrun
  obtain ⟨hi, rfl⟩ := Run.ofExcept_eq_ok.mp (Run.releasingOnFault_eq_ok.mp hposition)
  obtain ⟨id, w₁, hmake, hchange⟩ := run_bind_eq_ok.mp hrest
  rw [run_get_bind, elements_of_payload (one_of_makeUnique hb harray hmake).2] at hchange
  cases hchange
  exact ⟨id, i, w₁, rfl, hi, hmake, rfl⟩

/-! ## Failures -/

/-- Replacing an element that is not there fails with the reason, and only the new element is given
up. -/
theorem set_of_no_position {cause : Error} {index : Int}
    (hi : position (w.elements r).length index = .error cause) (value : Ref) :
    set r index value w =
      (.error (.error cause), { w with heap := value.toList.foldl Heap.release w.heap }) := by
  have hfail : Run.releasingOnFault value.toList
      (Run.ofExcept (position (w.elements r).length index) : Run κ Nat) w =
        (.error (.error cause), { w with heap := value.toList.foldl Heap.release w.heap }) := by
    rw [hi]
    rfl
  rw [set, run_get_bind, run_bind_of_error hfail]

/-- Whatever the reason, replacing an element that cannot be replaced gives up the new element only. -/
theorem world_of_set_error {index : Int} {fault : Fault}
    (hb : w.Balanced P (r.toList ++ (value.toList ++ others))) (harray : w.IsArray r)
    (hrun : set r index value w = (.error fault, w')) :
    w' = { w with heap := value.toList.foldl Heap.release w.heap } := by
  cases hi : position (w.elements r).length index with
  | error cause =>
      rw [set_of_no_position hi] at hrun
      cases hrun
      rfl
  | ok i =>
      -- an array with an element can be made the caller's own
      obtain ⟨a, elems, rfl, hcontent⟩ := exists_of_position hi
      obtain ⟨first, hfirst⟩ := hb.allowed hcontent
      obtain ⟨id, w₁, hmake⟩ := makeUnique_of_known hfirst (some a)
      have hposition : Run.releasingOnFault value.toList (Run.ofExcept
          (position (w.elements (some a)).length index) : Run κ Nat) w = (.ok i, w) :=
        Run.releasingOnFault_eq_ok.mpr (Run.ofExcept_eq_ok.mpr ⟨hi, rfl⟩)
      rw [set, run_get_bind, run_bind_of_ok hposition, run_bind_of_ok hmake] at hrun
      cases hrun

/-! ## Elements -/

/-- An element that has been read is in the array. -/
theorem mem_of_get {elem : RefType} {index : Int} {e : Ref}
    (hrun : get elem r index w = (.ok e, w')) : e ∈ w.elements r := by
  rw [get, run_get_bind] at hrun
  obtain ⟨i, w₁, hposition, hrest⟩ := run_bind_eq_ok.mp hrun
  obtain ⟨hi, rfl⟩ := Run.ofExcept_eq_ok.mp hposition
  obtain ⟨e', w₂, hdowncast, hrest⟩ := run_bind_eq_ok.mp hrest
  obtain ⟨_, w₃, -, hdone⟩ := run_bind_eq_ok.mp hrest
  cases hdone
  have hlt := (position_eq_ok hi).1
  rw [Run.eq_of_downcast hdowncast, List.getElem?_eq_getElem hlt, Option.join_some]
  exact List.getElem_mem hlt

end Arr

end ObjectRuntime
