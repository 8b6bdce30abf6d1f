import ObjectRuntime.Proofs.Object.Conversion
set_option autoImplicit false

/-!
# Objects with one owner

A container is changed in place if the caller's reference to it is the only one, and is copied
first otherwise.  Either way the caller ends up with an object that nothing else refers to, so its
content can change and nobody but the caller can tell.
-/

namespace ObjectRuntime

open Heap (Intact Owned Grown)
open World (Balanced Since)

variable {κ : Type} {P : κ → Prop} {w w' : World κ}
  {others mine keeps taken dropped : List ObjId} {id : ObjId}
  {c : ObjectClass} {payload old : Payload κ}

/-- An object to which there is one reference keeps it while other objects go. -/
theorem Heap.Owned.still_unique {h h' : Heap κ} {held held' : List ObjId}
    (hb : h.Owned (id :: held)) (hone : h.count id = 1) (hg : Grown h' h)
    (hb' : h'.Owned (id :: held')) (hsub : ∀ x ∈ held', x ∈ held) : h'.count id = 1 := by
  have hcounted := hb.counted id
  have hcounted' := hb'.counted id
  rw [List.count_cons_self] at hcounted hcounted'
  have hheld : held'.count id = 0 := by
    refine List.count_eq_zero.mpr fun hmem => ?_
    have := List.count_pos_iff.mpr (hsub id hmem)
    omega
  have hmentions : h'.mentions 0 id = 0 := by
    by_contra hne
    obtain ⟨x, o, ho, hid⟩ := Heap.exists_of_mentions_pos (Nat.pos_of_ne_zero hne)
    obtain ⟨n, hn⟩ := hg x o ho
    have := Heap.mentions_pos hn (Nat.zero_le _) hid
    omega
  omega

namespace Run

/-- The content of an object changes while its only reference is the caller's: it takes up
references that the caller gives and leaves others to the caller. -/
theorem conserves_setPayload (taken dropped keeps : List ObjId)
    (hb : w.Balanced P (id :: (taken ++ others)))
    (hone : w.heap.count id = 1) (hold : w.payload? id = some old)
    (hhooks : payload.hooks = old.hooks) (hallowed : w.Allows P payload)
    (hperm : List.Perm (payload.references ++ dropped) (old.references ++ taken)) :
    Conserves P w others (fun _ => id :: dropped) keeps (modifyHeap (·.setPayload id payload)) := by
  obtain ⟨o, ho, rfl⟩ := Option.map_eq_some_iff.mp hold
  have hset : w.heap.setPayload id payload = w.heap.set id (some { o with payload }) := by
    simp only [Heap.setPayload, ho]
  refine conserves_modifyHeap (Heap.becomes_setPayload ho hhooks) ?_
    ⟨?_, fun {x content} hcontent => ?_⟩
  · rw [hset]
    exact (Intact.of_unreached (hb.owned.not_reachable hone) _).mono
      fun _ hx => List.mem_append_right _ hx
  · refine hb.owned.setPayload ho ((Heap.count_of_get? ho).symm.trans hone)
      List.mem_cons_self fun x => ?_
    have := hperm.count_eq x
    simp only [List.count_append, List.cons_append, List.count_cons] at this ⊢
    omega
  · refine World.Allows.of_known (w := w) ?_ fun hc => hc
    simp only [World.payload?, hset] at hcontent
    by_cases hx : x = id
    · subst hx
      rw [Heap.get?_set_self ho] at hcontent
      exact Option.some.inj hcontent ▸ hallowed
    · rw [Heap.get?_set_of_ne hx] at hcontent
      exact hb.allowed hcontent

/-- The content of an object after it has been changed. -/
theorem payload?_setPayload {content : Payload κ} (hold : w.payload? id = some old) :
    ({ w with heap := w.heap.setPayload id content } : World κ).payload? id = some content := by
  obtain ⟨o, ho, -⟩ := Option.map_eq_some_iff.mp hold
  simp only [World.payload?, Heap.setPayload, ho, Heap.get?_set_self ho, Option.map_some]

/-- A copy of a content takes the place of one reference to an object. -/
def replace (id : ObjId) (c : ObjectClass) (payload : Payload κ) : Run κ ObjId := do
  modifyHeap (·.retainAll payload.references)
  let copy ← create c payload
  release id
  return copy

theorem conserves_replace (hb : w.Balanced P (id :: others))
    (hcontent : ∀ x ∈ payload.references, w.heap.Reachable (id :: others) x)
    (hsuits : Suits P c payload) :
    Conserves P w others (fun copy => [copy]) [id] (replace id c payload) := by
  refine (conserves_retainAll [id] [id] hb hcontent).bind fun _ w₁ _ _ hb₁ => ?_
  rw [List.append_assoc] at hb₁
  refine (conserves_create [id] hb₁ hsuits).bind fun copy w₂ _ _ hb₂ => ?_
  refine (conserves_release [copy] [id] ?_).bind fun _ w₃ _ _ hb₃ =>
    conserves_pure hb₃
  exact hb₂.perm (.swap _ _ _)

/-- The object is of a class, has a content, and has one owner. -/
def IsFresh (w : World κ) (id : ObjId) (c : ObjectClass) (payload : Payload κ) : Prop :=
  ∃ first, w.types.classIndex? c = some first ∧ w.heap.get? id = some ⟨first, 1, payload⟩

theorem isFresh_of_create (hrun : create c payload w = (.ok id, w')) : IsFresh w' id c payload := by
  obtain ⟨first, w₁, -, -, hknown, rfl, rfl⟩ := create_inv hrun
  exact ⟨first, hknown, by rw [Heap.get?_alloc, if_pos rfl]⟩

/-- A fresh object stays so while another reference is given up. -/
theorem IsFresh.release {other : ObjId} (hfresh : IsFresh w id c payload)
    (hb : w.Balanced P (other :: id :: others)) :
    IsFresh { w with heap := w.heap.release other } id c payload := by
  obtain ⟨first, hknown, hget⟩ := hfresh
  have hgrown := Heap.grown_of_release w.heap other
  have howned : (w.heap.release other).Owned (id :: others) := hb.owned.release
  obtain ⟨o, ho⟩ := howned.alive_of_mem List.mem_cons_self
  obtain ⟨n, hn⟩ := hgrown id o ho
  have hone : (w.heap.release other).count id = 1 :=
    (hb.owned.perm (.swap _ _ _)).still_unique (Heap.count_of_get? hget) hgrown howned
      fun _ hx => List.mem_cons_of_mem _ hx
  rw [Heap.count_of_get? ho] at hone
  obtain ⟨typeIndex, count, content⟩ := o
  obtain rfl : count = 1 := hone
  cases hget.symm.trans hn
  exact ⟨_, hknown, ho⟩

/-- A copy is fresh. -/
theorem isFresh_of_replace {copy : ObjId} (hb : w.Balanced P (id :: others))
    (hcontent : ∀ x ∈ payload.references, w.heap.Reachable (id :: others) x)
    (hsuits : Suits P c payload) (hrun : replace id c payload w = (.ok copy, w')) :
    IsFresh w' copy c payload := by
  obtain ⟨_, w₁, hretain, hrun⟩ := run_bind_eq_ok.mp hrun
  obtain ⟨-, hb₁⟩ :=
    (conserves_retainAll [id] [id] hb hcontent).ok _ _ hretain
  rw [List.append_assoc] at hb₁
  obtain ⟨_, w₂, hcreate, hrun⟩ := run_bind_eq_ok.mp hrun
  obtain ⟨-, hb₂⟩ := (conserves_create [id] hb₁ hsuits).ok _ _ hcreate
  obtain ⟨_, w₃, hrelease, hrun⟩ := run_bind_eq_ok.mp hrun
  cases hrun
  cases hrelease
  exact (isFresh_of_create hcreate).release (hb₂.perm (.swap _ _ _))

/-- A class that has been looked up can be had. -/
theorem create_of_known {first : Nat} (hc : w.types.classIndex? c = some first)
    (payload : Payload κ) : ∃ id w', create c payload w = (.ok id, w') := by
  have htouch : touch c w = (.ok first, w) := by
    simp only [touch, TypeTable.touch_of_classIndex? hc]
  exact ⟨_, _, create_of_touch htouch⟩

theorem replace_of_known {first : Nat} (hc : w.types.classIndex? c = some first) (id : ObjId)
    (payload : Payload κ) : ∃ copy w', replace id c payload w = (.ok copy, w') := by
  obtain ⟨copy, w₁, hcreate⟩ := create_of_known
    (w := { w with heap := w.heap.retainAll payload.references }) hc payload
  exact ⟨copy, _, (run_bind_of_ok rfl).trans ((run_bind_of_ok hcreate).trans rfl)⟩

/-! ## One owner -/

/-- An object of a content to which the caller holds the only reference: the caller's own object,
if there is no other reference to it, and a copy otherwise.  No object counts as an empty one. -/
def unique (c : ObjectClass) (payload : Payload κ) : Ref → Run κ ObjId
  | none => create c payload
  | some id => do
    if (← get).heap.count id = 1 then return id
    else replace id c payload

theorem unique_of_one (hone : w.heap.count id = 1) :
    unique c payload (some id) w = (.ok id, w) := by
  rw [unique, run_get_bind, if_pos hone]
  rfl

theorem unique_of_many (hmany : w.heap.count id ≠ 1) :
    unique c payload (some id) w = replace id c payload w := by
  rw [unique, run_get_bind, if_neg hmany]

end Run

/-- A reference to an object with a content, or to nothing, which stands for an empty content. -/
def World.Holds (w : World κ) (r : Ref) (payload : Payload κ) : Prop :=
  match r with
  | some id => w.payload? id = some payload
  | none => payload.references = []

namespace Run

variable {r : Ref}

theorem reachable_of_holds (hholds : w.Holds (some id) payload) :
    ∀ x ∈ payload.references, w.heap.Reachable (id :: others) x :=
  fun _ hx => reachable_of_payload (.of_mem List.mem_cons_self) hholds hx

/-- The caller ends up with the only reference. -/
theorem conserves_unique (hb : w.Balanced P (r.toList ++ others)) (hholds : w.Holds r payload)
    (hsuits : Suits P c payload) :
    Conserves P w others (fun id => [id]) r.toList (unique c payload r) := by
  cases r with
  | none =>
      refine conserves_create [] ?_ hsuits
      rw [show payload.references = [] from hholds]
      exact hb
  | some a =>
      by_cases hone : w.heap.count a = 1
      · exact Conserves.congr (x := pure a) (conserves_pure hb) (unique_of_one hone)
      · exact (conserves_replace hb (reachable_of_holds hholds) hsuits).congr (unique_of_many hone)

/-- The object has the content, and no other reference. -/
theorem one_of_unique (hb : w.Balanced P (r.toList ++ others)) (hholds : w.Holds r payload)
    (hsuits : Suits P c payload) (hrun : unique c payload r w = (.ok id, w')) :
    w'.heap.count id = 1 ∧ w'.payload? id = some payload := by
  have hfresh : IsFresh w' id c payload → w'.heap.count id = 1 ∧ w'.payload? id = some payload := by
    rintro ⟨first, -, hget⟩
    exact ⟨Heap.count_of_get? hget, by simp [World.payload?, hget]⟩
  cases r with
  | none => exact hfresh (isFresh_of_create hrun)
  | some a =>
      by_cases hone : w.heap.count a = 1
      · rw [unique_of_one hone] at hrun
        cases hrun
        exact ⟨hone, hholds⟩
      · rw [unique_of_many hone] at hrun
        exact hfresh (isFresh_of_replace hb (reachable_of_holds hholds) hsuits hrun)

/-- It can be had if the class can. -/
theorem unique_of_known {first : Nat} (hc : w.types.classIndex? c = some first)
    (payload : Payload κ) (r : Ref) : ∃ id w', unique c payload r w = (.ok id, w') := by
  cases r with
  | none => exact create_of_known hc payload
  | some a =>
      by_cases hone : w.heap.count a = 1
      · exact ⟨a, w, unique_of_one hone⟩
      · rw [unique_of_many hone]
        exact replace_of_known hc a payload

/-- A copy is made first and a reference given up afterwards. -/
theorem grown_of_replace {copy : ObjId} (hrun : replace id c payload w = (.ok copy, w')) :
    ∃ h, Heap.Grown w.heap h ∧ Heap.Grown w'.heap h := by
  obtain ⟨_, w₁, hretain, hrest⟩ := run_bind_eq_ok.mp hrun
  obtain ⟨_, w₂, hcreate, hrest⟩ := run_bind_eq_ok.mp hrest
  obtain ⟨_, w₃, hrelease, hdone⟩ := run_bind_eq_ok.mp hrest
  cases hdone
  cases hretain
  cases hrelease
  obtain ⟨first, w₁, -, -, -, -, rfl⟩ := create_inv hcreate
  exact ⟨_, (Heap.grown_retainAll _ _).trans (Heap.grown_alloc _ _ _), Heap.grown_of_release _ _⟩

theorem grown_of_unique (hrun : unique c payload r w = (.ok id, w')) :
    ∃ h, Heap.Grown w.heap h ∧ Heap.Grown w'.heap h := by
  cases r with
  | none =>
      obtain ⟨first, w₁, -, -, -, -, rfl⟩ := create_inv hrun
      exact ⟨_, Heap.grown_alloc _ _ _, .refl _⟩
  | some a =>
      by_cases hone : w.heap.count a = 1
      · rw [unique_of_one hone] at hrun
        cases hrun
        exact ⟨_, .refl _, .refl _⟩
      · rw [unique_of_many hone] at hrun
        exact grown_of_replace hrun

/-- No content changes on the way. -/
theorem payload?_of_unique (hrun : unique c payload r w = (.ok id, w')) {x : ObjId}
    {content content' : Payload κ} (hx : w.payload? x = some content)
    (hx' : w'.payload? x = some content') : content' = content := by
  obtain ⟨o, ho, rfl⟩ := Option.map_eq_some_iff.mp hx
  obtain ⟨o', ho', rfl⟩ := Option.map_eq_some_iff.mp hx'
  obtain ⟨h, hgrown, hshrunk⟩ := grown_of_unique hrun
  obtain ⟨n, hn⟩ := hgrown x o ho
  obtain ⟨n', hn'⟩ := hshrunk x o' ho'
  exact (congrArg Object.payload (Option.some.inj (hn.symm.trans hn'))).symm

end Run

end ObjectRuntime
