import ObjectRuntime.Proofs.Object.Counting
import Mathlib
set_option autoImplicit false

/-!
# What ends, ends once

Whatever is done to a heap is done in steps of five kinds (`Heap.Change`).  Over any number of such
steps a name is used for one object only, each object that is no longer there has been destroyed
once, and the hooks that have run are those of what was destroyed, in this order (`Heap.Ended`).
-/

namespace ObjectRuntime

open Relation (ReflTransGen)

namespace Heap

variable {κ : Type} {h h' h'' : Heap κ} {ids : List ObjId} {id x : ObjId} {o : Object κ}
  {payload : Payload κ}

/-- One step of what can happen to a heap. -/
inductive Change : Heap κ → Heap κ → Prop where
  | made (h : Heap κ) (typeIndex : Nat) (payload : Payload κ) :
      Change h (h.alloc typeIndex payload).1
  /-- An object that stays has a reference. -/
  | recounted {h : Heap κ} {id : ObjId} {o : Object κ} (alive : h.get? id = some o) {n : Nat}
      (referred : 0 < n) : Change h (h.set id (some { o with count := n }))
  | rewritten {h : Heap κ} {id : ObjId} {o : Object κ} (alive : h.get? id = some o)
      (payload : Payload κ) (hooks : payload.hooks = o.payload.hooks) :
      Change h (h.set id (some { o with payload }))
  /-- An object is destroyed in place of its last reference. -/
  | destroyed {h : Heap κ} {id : ObjId} {o : Object κ} (alive : h.get? id = some o)
      (last : o.count ≤ 1) : Change h (h.destroy id o)
  /-- Content that has not become an object is destroyed. -/
  | discarded (h : Heap κ) (payload : Payload κ) : Change h (h.runHooks payload)

/-- Any number of steps. -/
abbrev Becomes (h h' : Heap κ) : Prop := ReflTransGen Change h h'

/-! ## Operations as steps -/

theorem becomes_alloc (h : Heap κ) (typeIndex : Nat) (payload : Payload κ) :
    Becomes h (h.alloc typeIndex payload).1 := .single (.made h typeIndex payload)

theorem becomes_retain (h : Heap κ) (id : ObjId) : Becomes h (h.retain id) := by
  unfold retain
  split
  · rename_i o ho
    exact .single (.recounted ho (Nat.succ_pos _))
  · exact .refl

theorem becomes_retainAll (h : Heap κ) (ids : List ObjId) : Becomes h (h.retainAll ids) := by
  induction ids generalizing h with
  | nil => exact .refl
  | cons id ids ih => exact (becomes_retain h id).trans (ih (h.retain id))

theorem becomes_setPayload (ho : h.get? id = some o) (hhooks : payload.hooks = o.payload.hooks) :
    Becomes h (h.setPayload id payload) := by
  simp only [setPayload, ho]
  exact .single (.rewritten ho payload hhooks)

theorem becomes_releaseWithin (fuel : Nat) (h : Heap κ) (ids : List ObjId) :
    Becomes h (releaseWithin fuel h ids) := by
  induction fuel generalizing h ids with
  | zero => exact .refl
  | succ fuel ih =>
      cases ids with
      | nil => exact .refl
      | cons id rest =>
          simp only [releaseWithin]
          split
          · exact ih h rest
          · rename_i o ho
            split
            · rename_i hmany
              exact .head (.recounted ho (Nat.sub_pos_of_lt hmany)) (ih _ rest)
            · rename_i hfew
              exact .head (.destroyed ho (Nat.le_of_not_lt hfew)) (ih _ _)

theorem becomes_release (h : Heap κ) (id : ObjId) : Becomes h (h.release id) := by
  unfold release
  split
  · exact .refl
  · rename_i o ho
    split
    · rename_i hmany
      exact .single (.recounted ho (Nat.sub_pos_of_lt hmany))
    · exact becomes_releaseWithin _ h [id]

theorem becomes_releases (h : Heap κ) (ids : List ObjId) : Becomes h (ids.foldl release h) := by
  induction ids generalizing h with
  | nil => exact .refl
  | cons id ids ih => exact (becomes_release h id).trans (ih _)

theorem becomes_discard (h : Heap κ) (payload : Payload κ) : Becomes h (h.discard payload) :=
  .head (.discarded h payload) (becomes_releases _ _)

/-! ## What has ended -/

/-- Something that has been destroyed: an object, or content that has not become one. -/
structure Death (κ : Type) where
  name : Option ObjId
  payload : Payload κ

/-- What has been destroyed since an earlier heap, the latest first. -/
structure Ended (h h' : Heap κ) (deaths : List (Death κ)) : Prop where
  size : h.cells.size ≤ h'.cells.size
  /-- A name is not used again. -/
  stays : ∀ {id}, id.index < h.cells.size → h.get? id = none → h'.get? id = none
  /-- No object is destroyed twice. -/
  once : (deaths.filterMap Death.name).Nodup
  /-- Objects that are no longer there have been destroyed, and no others. -/
  dead : ∀ {id}, id ∈ deaths.filterMap Death.name ↔
    id.index < h'.cells.size ∧ h'.get? id = none ∧ (id.index < h.cells.size → h.get? id ≠ none)
  /-- Their hooks have run, and no others. -/
  hooks : h'.hooksRun = (deaths.flatMap fun d => d.payload.hooks.reverse) ++ h.hooksRun
  /-- Objects have the hooks that they had. -/
  same : ∀ {id o o'}, h.get? id = some o → h'.get? id = some o' → o'.payload.hooks = o.payload.hooks
  /-- Objects were destroyed with the hooks that they had. -/
  own : ∀ {id o d}, h.get? id = some o → d ∈ deaths → d.name = some id →
    d.payload.hooks = o.payload.hooks

namespace Ended

variable {deaths : List (Death κ)}

theorem refl (h : Heap κ) : Ended h h [] where
  size := Nat.le_refl _
  stays _ hid := hid
  once := .nil
  dead := by
    intro id
    simp only [List.filterMap_nil, List.not_mem_nil, ne_eq, false_iff, not_and]
    exact fun hlt hid hwas => hwas hlt hid
  hooks := rfl
  same ho ho' := by rw [Option.some.inj (ho.symm.trans ho')]
  own _ hd _ := nomatch hd

/-- A step that neither makes nor destroys an object. -/
theorem kept (he : Ended h h' deaths) (hsize : h''.cells.size = h'.cells.size)
    (hhooks : h''.hooksRun = h'.hooksRun)
    (hget : ∀ id, (h''.get? id).map (fun o => o.payload.hooks) =
      (h'.get? id).map fun o => o.payload.hooks) : Ended h h'' deaths := by
  have hnone : ∀ id, h''.get? id = none ↔ h'.get? id = none := by
    intro id
    rw [← Option.map_eq_none_iff, hget, Option.map_eq_none_iff]
  refine ⟨hsize ▸ he.size, fun hlt hid => (hnone _).mpr (he.stays hlt hid), he.once, ?_,
    hhooks.trans he.hooks, fun {id o o'} ho ho' => ?_, he.own⟩
  · intro id
    rw [he.dead, hsize, hnone]
  · have hmap := hget id
    rw [ho', Option.map_some, eq_comm, Option.map_eq_some_iff] at hmap
    obtain ⟨o₁, ho₁, heq⟩ := hmap
    rw [← heq, he.same ho ho₁]

theorem made (he : Ended h h' deaths) (typeIndex : Nat) (payload : Payload κ) :
    Ended h (h'.alloc typeIndex payload).1 deaths := by
  have hnone : ∀ {id : ObjId}, (h'.alloc typeIndex payload).1.get? id = none ↔
      id.index ≠ h'.cells.size ∧ h'.get? id = none := by
    intro id
    rw [get?_alloc]
    split_ifs with hid <;> simp [hid]
  refine ⟨?_, fun {id} hlt hid => ?_, he.once, ?_, he.hooks, fun {id o o'} ho ho' => ?_, he.own⟩
  · rw [size_alloc]
    exact Nat.le_succ_of_le he.size
  · exact hnone.mpr ⟨Nat.ne_of_lt (Nat.lt_of_lt_of_le hlt he.size), he.stays hlt hid⟩
  · intro id
    rw [he.dead, hnone, size_alloc]
    constructor
    · rintro ⟨hlt, hid, hwas⟩
      exact ⟨Nat.lt_succ_of_lt hlt, ⟨Nat.ne_of_lt hlt, hid⟩, hwas⟩
    · rintro ⟨hlt, ⟨hne, hid⟩, hwas⟩
      exact ⟨by omega, hid, hwas⟩
  · have hlt := lt_size_of_get? ho
    rw [get?_alloc, if_neg (Nat.ne_of_lt (Nat.lt_of_lt_of_le hlt he.size))] at ho'
    exact he.same ho ho'

theorem destroyed (he : Ended h h' deaths) (ho : h'.get? id = some o) :
    Ended h (h'.destroy id o) (⟨some id, o.payload⟩ :: deaths) := by
  have hget : ∀ x, (h'.destroy id o).get? x = if x = id then none else h'.get? x := by
    intro x
    have hcells : (h'.destroy id o).get? x = (h'.set id none).get? x := rfl
    rw [hcells]
    split_ifs with hx
    · subst hx
      exact get?_set_self ho none
    · exact get?_set_of_ne hx none
  have hsize : (h'.destroy id o).cells.size = h'.cells.size := size_set h' id none
  have hlt := lt_size_of_get? ho
  have hnew : id ∉ deaths.filterMap Death.name := by
    intro hmem
    rw [he.dead, ho] at hmem
    exact nomatch hmem.2.1
  refine ⟨hsize ▸ he.size, fun {x} hx hdead => ?_, ?_, ?_, ?_, fun {x o₁ o₂} ho₁ ho₂ => ?_,
    fun {x o₁ d} ho₁ hd hname => ?_⟩
  · rw [hget]
    split_ifs
    · rfl
    · exact he.stays hx hdead
  · exact List.nodup_cons.mpr ⟨hnew, he.once⟩
  · intro x
    simp only [List.filterMap_cons, List.mem_cons, he.dead, hget, hsize]
    by_cases hx : x = id
    · subst hx
      simp only [if_pos, true_or, hlt, ne_eq, true_and, true_iff]
      intro hwas hdead
      rw [he.stays hwas hdead] at ho
      cases ho
    · simp only [hx, false_or, if_false]
  · exact congrArg (o.payload.hooks.reverse ++ ·) he.hooks |>.trans (List.append_assoc _ _ _).symm
  · rw [hget] at ho₂
    split_ifs at ho₂
    exact he.same ho₁ ho₂
  · rcases List.mem_cons.mp hd with rfl | hd
    · obtain rfl := Option.some.inj hname
      exact he.same ho₁ ho
    · exact he.own ho₁ hd hname

theorem discarded (he : Ended h h' deaths) (payload : Payload κ) :
    Ended h (h'.runHooks payload) (⟨none, payload⟩ :: deaths) := by
  refine ⟨he.size, he.stays, he.once, he.dead, ?_, he.same, fun ho hd hname => ?_⟩
  · exact congrArg (payload.hooks.reverse ++ ·) he.hooks |>.trans (List.append_assoc _ _ _).symm
  · rcases List.mem_cons.mp hd with rfl | hd
    · cases hname
    · exact he.own ho hd hname

/-- One more step. -/
theorem step (he : Ended h h' deaths) (hc : Change h' h'') : ∃ deaths', Ended h h'' deaths' := by
  cases hc with
  | made typeIndex payload => exact ⟨_, he.made typeIndex payload⟩
  | @recounted id o alive n referred =>
      refine ⟨deaths, he.kept (size_set h' id _) rfl fun x => ?_⟩
      by_cases hx : x = id
      · subst hx
        rw [get?_set_self alive, alive]
        rfl
      · rw [get?_set_of_ne hx]
  | @rewritten id o alive payload hooks =>
      refine ⟨deaths, he.kept (size_set h' id _) rfl fun x => ?_⟩
      by_cases hx : x = id
      · subst hx
        rw [get?_set_self alive, alive, Option.map_some, Option.map_some, hooks]
      · rw [get?_set_of_ne hx]
  | destroyed alive last => exact ⟨_, he.destroyed alive⟩
  | discarded payload => exact ⟨_, he.discarded payload⟩

end Ended

/-- Over any number of steps, whatever ends, ends once. -/
theorem exists_ended (hb : Becomes h h') : ∃ deaths, Ended h h' deaths := by
  induction hb with
  | refl => exact ⟨[], .refl h⟩
  | tail _ hc ih =>
      obtain ⟨deaths, he⟩ := ih
      exact he.step hc

end Heap

end ObjectRuntime
