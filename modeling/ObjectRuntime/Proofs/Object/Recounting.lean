import ObjectRuntime.Proofs.Object.Ownership
set_option autoImplicit false

/-!
# Heaps that differ in their counts

Two heaps are alike if they have the same objects, whatever the counts (`Heap.Alike`).  Where every
reference is counted, what is held decides what is there: if references are given up in two ways,
and the same ones are held in the end, the objects that are left and their counts are the same.
-/

namespace ObjectRuntime

namespace Heap

variable {κ : Type} {h h' h'' : Heap κ} {held ids : List ObjId} {id x : ObjId} {o : Object κ}

/-- What is not there is not there after the heap has shrunk. -/
theorem Grown.dead (hg : Grown h' h) (hid : h.get? id = none) : h'.get? id = none := by
  cases ho : h'.get? id with
  | none => rfl
  | some o =>
      obtain ⟨n, hn⟩ := hg id o ho
      rw [hid] at hn
      cases hn

/-- The objects are the same, with the same types and contents. -/
structure Alike (h h' : Heap κ) : Prop where
  size : h'.cells.size = h.cells.size
  forth : Grown h h'
  back : Grown h' h

namespace Alike

theorem refl (h : Heap κ) : Alike h h := ⟨rfl, .refl h, .refl h⟩

theorem symm (ha : Alike h h') : Alike h' h := ⟨ha.size.symm, ha.back, ha.forth⟩

theorem trans (ha : Alike h h') (ha' : Alike h' h'') : Alike h h'' :=
  ⟨ha'.size.trans ha.size, ha.forth.trans ha'.forth, ha'.back.trans ha.back⟩

/-- A destroyed object is destroyed in both. -/
theorem dead (ha : Alike h h') (hx : h.get? x = none) : h'.get? x = none := ha.back.dead hx

theorem payload (ha : Alike h h') (x : ObjId) :
    (h'.get? x).map Object.payload = (h.get? x).map Object.payload := by
  cases ho : h.get? x with
  | none => rw [ha.dead ho]
  | some o =>
      obtain ⟨n, hn⟩ := ha.forth x o ho
      rw [hn]
      rfl

/-- The references in contents are the same. -/
theorem mentions (ha : Alike h h') (x : ObjId) : h'.mentions 0 x = h.mentions 0 x := by
  have hcell : ∀ (h : Heap κ) (i : Nat) (hi : i < h.cells.size),
      (cellReferences h.cells[i]).count x =
        (((h.get? ⟨i⟩).map Object.payload).elim [] Payload.references).count x := by
    intro h i hi
    simp only [get?, Array.getElem?_eq_getElem hi, Option.join_some]
    cases h.cells[i] with
    | none => rfl
    | some o => rfl
  simp only [Heap.mentions, List.drop_zero]
  congr 1
  refine List.ext_getElem (by simp [ha.size]) fun i hi' hi => ?_
  simp only [List.length_map, Array.length_toList] at hi hi'
  simp only [List.getElem_map, Array.getElem_toList]
  rw [hcell h' i hi', hcell h i hi, ha.payload]

/-- The heaps have the same cells if the counts are the same too. -/
theorem cells_eq (ha : Alike h h') (hcount : ∀ x, h'.count x = h.count x) : h'.cells = h.cells := by
  have hget : ∀ x, h'.get? x = h.get? x := by
    intro x
    cases ho : h.get? x with
    | none => exact ha.dead ho
    | some o =>
        obtain ⟨n, hn⟩ := ha.forth x o ho
        have hsame : n = o.count := by
          rw [← count_of_get? ho, ← hcount, count_of_get? hn]
        rw [hn, hsame]
  refine Array.ext ha.size fun i hi' hi => ?_
  have := hget ⟨i⟩
  simpa [get?, Array.getElem?_eq_getElem hi', Array.getElem?_eq_getElem hi] using this

end Alike

theorem alike_retain (ho : h.get? id = some o) : Alike h (h.retain id) :=
  ⟨size_retain h id, grown_retain h id, grown_of_retain ho⟩

theorem alike_retainAll (hids : ∀ x ∈ ids, ∃ o, h.get? x = some o) : Alike h (h.retainAll ids) :=
  ⟨size_retainAll h ids, grown_retainAll h ids, grown_of_retainAll hids⟩

theorem hooksRun_retainAll (h : Heap κ) (ids : List ObjId) :
    (h.retainAll ids).hooksRun = h.hooksRun := by
  induction ids generalizing h with
  | nil => rfl
  | cons id ids ih =>
      refine (ih (h.retain id)).trans ?_
      unfold retain
      split <;> rfl

theorem retainAll_append (h : Heap κ) (ids ids' : List ObjId) :
    h.retainAll (ids ++ ids') = (h.retainAll ids).retainAll ids' := List.foldl_append

/-! ## Giving up references -/

/-- A reference that is added and given up again leaves the heap as it was. -/
theorem release_retain (hpos : 0 < h.count id) : (h.retain id).release id = h := by
  obtain ⟨o, ho⟩ := exists_of_count_pos hpos
  have hcount : o.count + 1 > 1 := Nat.succ_lt_succ (count_of_get? ho ▸ hpos)
  have hmore : (h.set id (some { o with count := o.count + 1 })).get? id =
      some { o with count := o.count + 1 } := get?_set_self ho _
  have hback : (h.set id (some { o with count := o.count + 1 })).set id (some o) =
      h.set id (some o) := by
    simp only [set, Array.setIfInBounds_setIfInBounds]
  simp only [retain, ho, release, hmore, if_pos hcount, Nat.add_sub_cancel]
  exact hback.trans (set_of_get? ho)

/-- Giving up a reference to an object lowers its count by one. -/
theorem count_release (hpos : 0 < h.count id) : (h.release id).count id + 1 = h.count id := by
  obtain ⟨o, ho⟩ := exists_of_count_pos hpos
  rw [count_of_get? ho] at hpos ⊢
  simp only [release, ho]
  split
  · rw [count_set ho, if_pos rfl]
    simp only [Option.map_some, Option.getD_some]
    omega
  · rename_i hlast
    have hdead : (h.destroy id o).get? id = none := get?_set_self ho none
    have hgone : (h.releaseAll [id]).get? id = none := by
      simp only [releaseAll, List.length_singleton, releaseWithin, ho, if_neg hlast]
      exact (grown_of_releaseWithin _ _ _).dead hdead
    rw [count_of_dead hgone]
    omega

theorem size_releaseWithin (fuel : Nat) (h : Heap κ) (ids : List ObjId) :
    (releaseWithin fuel h ids).cells.size = h.cells.size := by
  induction fuel generalizing h ids with
  | zero => rfl
  | succ fuel ih =>
      cases ids with
      | nil => rfl
      | cons id rest =>
          simp only [releaseWithin]
          split
          · exact ih h rest
          · split
            · exact (ih _ rest).trans (size_set h id _)
            · exact (ih _ _).trans (size_set h id none)

theorem size_release (h : Heap κ) (id : ObjId) : (h.release id).cells.size = h.cells.size := by
  unfold release
  split
  · rfl
  · split
    · exact size_set h id _
    · exact size_releaseWithin _ h [id]

theorem size_releases (h : Heap κ) (ids : List ObjId) :
    (ids.foldl release h).cells.size = h.cells.size := by
  induction ids generalizing h with
  | nil => rfl
  | cons id ids ih => exact (ih _).trans (size_release h id)

namespace Owned

/-- Every added reference is counted. -/
theorem count_retainAll (hb : Owned h held) (hids : ∀ x ∈ ids, ∃ o, h.get? x = some o) (x : ObjId) :
    (h.retainAll ids).count x = h.count x + ids.count x := by
  rw [(hb.retainAll hids).counted, hb.counted, (alike_retainAll hids).mentions, List.count_append]
  omega

/-- Of two heaps that are left from one, each has the objects of the other if the same is held. -/
theorem grown_of_shrunk (hb : Owned h held) (hb' : Owned h' held) (hg : Grown h h'')
    (hg' : Grown h' h'') : Grown h h' := by
  intro x o ho
  have hreach := (Intact.of_grown hg).reachable (hb.reachable_of_alive ho)
  obtain ⟨n, hn⟩ := hg x o ho
  obtain ⟨m, hm⟩ := Intact.of_shrunk hg' hb' x _ hreach hn
  exact ⟨m, hm⟩

/-- What is held decides the counts. -/
theorem cells_eq (hb : Owned h held) (hb' : Owned h' held) (ha : Alike h h') :
    h'.cells = h.cells :=
  ha.cells_eq fun x => by rw [hb.counted, hb'.counted, ha.mentions]

end Owned

/-- References have been added and given up, and some are held in the end. -/
structure Leaves (h : Heap κ) (held : List ObjId) (h' : Heap κ) : Prop where
  owned : Owned h' held
  back : Grown h' h
  size : h'.cells.size = h.cells.size

namespace Leaves

variable {keep : List ObjId}

theorem refl (hb : Owned h held) : Leaves h held h := ⟨hb, .refl h, rfl⟩

theorem trans (hl : Leaves h held h') (hl' : Leaves h' keep h'') : Leaves h keep h'' :=
  ⟨hl'.owned, hl'.back.trans hl.back, hl'.size.trans hl.size⟩

theorem perm (hl : Leaves h held h') (hp : List.Perm keep held) : Leaves h keep h' :=
  ⟨hl.owned.perm hp, hl.back, hl.size⟩

theorem retain (hb : Owned h held) (hid : id ∈ held) : Leaves h (id :: held) (h.retain id) := by
  obtain ⟨o, ho⟩ := hb.alive_of_mem hid
  exact ⟨hb.retain ho, grown_of_retain ho, size_retain h id⟩

theorem releases (hb : Owned h (ids ++ keep)) : Leaves h keep (ids.foldl release h) :=
  ⟨hb.releases, grown_of_releases h ids, size_releases h ids⟩

/-- It does not matter how references have been added and given up, but which are held. -/
theorem cells_eq (hl : Leaves h held h') (hl' : Leaves h held h'') : h''.cells = h'.cells :=
  hl.owned.cells_eq hl'.owned ⟨hl'.size.trans hl.size.symm,
    hl.owned.grown_of_shrunk hl'.owned hl.back hl'.back,
    hl'.owned.grown_of_shrunk hl.owned hl'.back hl.back⟩

end Leaves

end Heap

end ObjectRuntime
