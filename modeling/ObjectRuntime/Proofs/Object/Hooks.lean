import ObjectRuntime.Proofs.Object.Ownership
set_option autoImplicit false

/-!
# Hooks run once

A hook is entrusted to the one object that stands for its resource.  While the object is there the
hook has not run, and once it is gone the hook has run once (`Heap.Entrusts`).  Making, counting,
rewriting and giving up objects keeps that, so when a hook runs is only a question of who reaches
its object.
-/

namespace ObjectRuntime

variable {κ : Type}

/-- Content has one hook or none. -/
theorem Payload.hooks_cases (payload : Payload κ) :
    payload.hooks = [] ∨ ∃ hook, payload.hooks = [hook] := by
  have hoption : ∀ hook : Option Hook, hook.toList = [] ∨ ∃ x, hook.toList = [x] := by
    rintro (_ | hook)
    · exact .inl rfl
    · exact .inr ⟨hook, rfl⟩
  cases payload with
  | function code finalizer => exact hoption finalizer
  | tensor t =>
      obtain ⟨shape, dtype, unit, offset, memory⟩ := t
      cases memory with
      | foreign data deleter => exact hoption deleter
      | owned | sharedWith => exact .inl rfl
  | _ => exact .inl rfl

namespace Heap

variable {h h' : Heap κ} {taken : List (Hook × ObjId)} {id x : ObjId} {o : Object κ} {hook : Hook}
  {payload : Payload κ}

/-! ## Giving up, step by step -/

/-- What is kept when an object loses a reference and when one is destroyed is kept when references
are given up. -/
theorem releaseWithin_keeps {P : Heap κ → Prop}
    (recount : ∀ {h : Heap κ} {id : ObjId} {o : Object κ}, h.get? id = some o → P h →
      P (h.set id (some { o with count := o.count - 1 })))
    (destroy : ∀ {h : Heap κ} {id : ObjId} {o : Object κ}, h.get? id = some o → P h →
      P (h.destroy id o)) (fuel : Nat) (ids : List ObjId) (hP : P h) :
    P (releaseWithin fuel h ids) := by
  induction fuel generalizing h ids with
  | zero => exact hP
  | succ fuel ih =>
      cases ids with
      | nil => exact hP
      | cons id rest =>
          simp only [releaseWithin]
          split
          · exact ih rest hP
          · rename_i o ho
            split
            · exact ih rest (recount ho hP)
            · exact ih _ (destroy ho hP)

theorem release_keeps {P : Heap κ → Prop}
    (recount : ∀ {h : Heap κ} {id : ObjId} {o : Object κ}, h.get? id = some o → P h →
      P (h.set id (some { o with count := o.count - 1 })))
    (destroy : ∀ {h : Heap κ} {id : ObjId} {o : Object κ}, h.get? id = some o → P h →
      P (h.destroy id o)) (id : ObjId) (hP : P h) : P (h.release id) := by
  unfold release
  split
  · exact hP
  · rename_i o ho
    split
    · exact recount ho hP
    · exact releaseWithin_keeps recount destroy _ _ hP

/-! ## Who stands for what -/

/-- The hooks that have been entrusted to objects, each to one. -/
structure Entrusts (h : Heap κ) (taken : List (Hook × ObjId)) : Prop where
  once : (taken.map Prod.fst).Nodup
  made : ∀ {hook id}, (hook, id) ∈ taken → id.index < h.cells.size
  /-- Objects stand for what they have been entrusted with, and for nothing else. -/
  listed : ∀ {id o hook}, h.get? id = some o → hook ∈ o.payload.hooks → (hook, id) ∈ taken
  pending : ∀ {hook id o}, (hook, id) ∈ taken → h.get? id = some o →
    o.payload.hooks = [hook] ∧ h.hooksRun.count hook = 0
  told : ∀ {hook id}, (hook, id) ∈ taken → h.get? id = none → h.hooksRun.count hook = 1
  others : ∀ {hook}, hook ∉ taken.map Prod.fst → h.hooksRun.count hook = 0

namespace Entrusts

theorem empty : Entrusts (empty : Heap κ) [] where
  once := .nil
  made h := nomatch h
  listed ho := nomatch ho
  pending h := nomatch h
  told h := nomatch h
  others _ := rfl

/-- A hook is entrusted to one object. -/
theorem eq_of_mem (he : Entrusts h taken) (hid : (hook, id) ∈ taken) (hx : (hook, x) ∈ taken) :
    id = x :=
  congrArg Prod.snd (List.inj_on_of_nodup_map he.once hid hx rfl)

/-- Only the contents of objects and what has run matter. -/
theorem congr (he : Entrusts h taken) (hsize : h'.cells.size = h.cells.size)
    (hruns : h'.hooksRun = h.hooksRun)
    (hget : ∀ id, (h'.get? id).map (·.payload.hooks) = (h.get? id).map (·.payload.hooks)) :
    Entrusts h' taken := by
  have hsame : ∀ {id o'}, h'.get? id = some o' →
      ∃ o, h.get? id = some o ∧ o.payload.hooks = o'.payload.hooks := by
    intro id o' ho'
    have hmap := hget id
    rw [ho', Option.map_some, eq_comm, Option.map_eq_some_iff] at hmap
    exact hmap
  refine ⟨he.once, fun hmem => hsize ▸ he.made hmem, fun ho' hhook => ?_, fun hmem ho' => ?_,
    fun {hook id} hmem hdead => ?_, fun hmem => hruns ▸ he.others hmem⟩
  · obtain ⟨o, ho, hhooks⟩ := hsame ho'
    exact he.listed ho (hhooks ▸ hhook)
  · obtain ⟨o, ho, hhooks⟩ := hsame ho'
    rw [← hhooks, hruns]
    exact he.pending hmem ho
  · have hmap := hget id
    rw [hdead, Option.map_none, eq_comm, Option.map_eq_none_iff] at hmap
    exact hruns ▸ he.told hmem hmap

/-- Another object in the place of one with the same hooks. -/
theorem set (he : Entrusts h taken) (ho : h.get? id = some o) {o' : Object κ}
    (hhooks : o'.payload.hooks = o.payload.hooks) : Entrusts (h.set id (some o')) taken := by
  refine he.congr (size_set h id _) rfl fun x => ?_
  by_cases hx : x = id
  · subst hx
    rw [get?_set_self ho, ho, Option.map_some, Option.map_some, hhooks]
  · rw [get?_set_of_ne hx]

theorem retain (he : Entrusts h taken) (id : ObjId) : Entrusts (h.retain id) taken := by
  unfold Heap.retain
  split
  · rename_i o ho
    exact he.set ho rfl
  · exact he

theorem setPayload (he : Entrusts h taken) (ho : h.get? id = some o)
    (hhooks : payload.hooks = o.payload.hooks) : Entrusts (h.setPayload id payload) taken := by
  simp only [Heap.setPayload, ho]
  exact he.set ho hhooks

/-- An object is entrusted with hooks that no other one stands for. -/
theorem alloc (he : Entrusts h taken) (typeIndex : Nat)
    (hfresh : ∀ hook ∈ payload.hooks, hook ∉ taken.map Prod.fst) :
    Entrusts (h.alloc typeIndex payload).1
      (payload.hooks.map (·, ⟨h.cells.size⟩) ++ taken) := by
  have hnew : ∀ {hook id}, (hook, id) ∈ taken → id.index ≠ h.cells.size := fun hmem =>
    Nat.ne_of_lt (he.made hmem)
  have hold : ∀ {hook id}, (hook, id) ∈ taken →
      (h.alloc typeIndex payload).1.get? id = h.get? id := fun hmem => by
    rw [get?_alloc, if_neg (hnew hmem)]
  have hself : (h.alloc typeIndex payload).1.get? ⟨h.cells.size⟩ = some ⟨typeIndex, 1, payload⟩ := by
    rw [get?_alloc, if_pos rfl]
  have hfirst : (payload.hooks.map (·, (⟨h.cells.size⟩ : ObjId)) ++ taken).map Prod.fst =
      payload.hooks ++ taken.map Prod.fst := by
    rw [List.map_append, List.map_map]
    exact congrArg (· ++ _) (List.map_id' payload.hooks)
  have hmem_new : ∀ {hook id}, (hook, id) ∈ payload.hooks.map (·, (⟨h.cells.size⟩ : ObjId)) →
      hook ∈ payload.hooks ∧ id = ⟨h.cells.size⟩ := by
    intro hook id hmem
    obtain ⟨x, hx, heq⟩ := List.mem_map.mp hmem
    cases heq
    exact ⟨hx, rfl⟩
  refine ⟨?_, fun hmem => ?_, fun {id o hook} ho hhook => ?_, fun {hook id o} hmem ho => ?_,
    fun {hook id} hmem hdead => ?_, fun {hook} hmem => ?_⟩
  · rw [hfirst]
    refine List.Nodup.append ?_ he.once fun hook hhook htaken => hfresh hook hhook htaken
    rcases payload.hooks_cases with hnone | ⟨hook, hone⟩
    · exact hnone ▸ .nil
    · exact hone ▸ List.nodup_singleton hook
  · rw [size_alloc]
    rcases List.mem_append.mp hmem with hmem | hmem
    · rw [(hmem_new hmem).2]
      exact Nat.lt_succ_self _
    · exact Nat.lt_succ_of_lt (he.made hmem)
  · rw [get?_alloc] at ho
    split at ho
    · rename_i hid
      cases ho
      cases id
      cases hid
      exact List.mem_append_left _ (List.mem_map.mpr ⟨hook, hhook, rfl⟩)
    · exact List.mem_append_right _ (he.listed ho hhook)
  · rcases List.mem_append.mp hmem with hmem | hmem
    · obtain ⟨hhook, rfl⟩ := hmem_new hmem
      rw [hself, Option.some.injEq] at ho
      subst ho
      refine ⟨?_, he.others (hfresh hook hhook)⟩
      rcases payload.hooks_cases with hnone | ⟨x, hone⟩
      · rw [hnone] at hhook
        cases hhook
      · rw [hone, List.mem_singleton] at hhook
        rw [hone, hhook]
    · exact he.pending hmem ((hold hmem).symm.trans ho)
  · rcases List.mem_append.mp hmem with hmem | hmem
    · obtain ⟨-, rfl⟩ := hmem_new hmem
      rw [hself] at hdead
      cases hdead
    · exact he.told hmem ((hold hmem).symm.trans hdead)
  · rw [hfirst, List.mem_append, not_or] at hmem
    exact he.others hmem.2

/-- When an object is destroyed its hooks run. -/
theorem destroy (he : Entrusts h taken) (ho : h.get? id = some o) :
    Entrusts (h.destroy id o) taken := by
  have hget : ∀ x, (h.destroy id o).get? x = if x = id then none else h.get? x := by
    intro x
    change (h.set id none).get? x = _
    split_ifs with hx
    · rw [hx, get?_set_self ho]
    · exact get?_set_of_ne hx none
  have hcount : ∀ hook, (h.destroy id o).hooksRun.count hook =
      o.payload.hooks.count hook + h.hooksRun.count hook := by
    intro hook
    change (o.payload.hooks.reverse ++ h.hooksRun).count hook = _
    rw [List.count_append, List.count_reverse]
  have helsewhere : ∀ {hook x}, (hook, x) ∈ taken → x ≠ id → o.payload.hooks.count hook = 0 := by
    intro hook x hmem hx
    refine List.count_eq_zero.mpr fun hhook => hx ?_
    exact he.eq_of_mem hmem (he.listed ho hhook)
  refine ⟨he.once, fun hmem => ?_, fun {x o' hook} ho' hhook => ?_, fun {hook x o'} hmem ho' => ?_,
    fun {hook x} hmem hdead => ?_, fun {hook} hmem => ?_⟩
  · exact (size_set h id none).symm ▸ he.made hmem
  · rw [hget] at ho'
    split_ifs at ho'
    exact he.listed ho' hhook
  · rw [hget] at ho'
    split_ifs at ho' with hx
    obtain ⟨hhooks, hzero⟩ := he.pending hmem ho'
    rw [hcount, helsewhere hmem hx, hzero]
    exact ⟨hhooks, rfl⟩
  · rw [hget] at hdead
    split_ifs at hdead with hx
    · subst hx
      obtain ⟨hhooks, hzero⟩ := he.pending hmem ho
      rw [hcount, hhooks, hzero, List.count_singleton_self]
    · rw [hcount, helsewhere hmem hx, he.told hmem hdead]
  · have hnot : hook ∉ o.payload.hooks := fun hhook =>
      hmem (List.mem_map.mpr ⟨_, he.listed ho hhook, rfl⟩)
    rw [hcount, List.count_eq_zero.mpr hnot, he.others hmem]

theorem release (he : Entrusts h taken) (id : ObjId) : Entrusts (h.release id) taken :=
  release_keeps (P := (Entrusts · taken)) (fun ho he => he.set ho rfl) (fun ho he => he.destroy ho)
    id he

/-- A hook has not run while its object is reached. -/
theorem waits {held : List ObjId} (he : Entrusts h taken) (hb : Owned h held)
    (hmem : (hook, id) ∈ taken) (hreached : h.Reachable held id) : h.hooksRun.count hook = 0 := by
  obtain ⟨o, ho⟩ := hb.alive_of_reachable hreached
  exact (he.pending hmem ho).2

/-- It has run once when its object is no longer reached. -/
theorem runs {held : List ObjId} (he : Entrusts h taken) (hb : Owned h held)
    (hmem : (hook, id) ∈ taken) (hlost : ¬ h.Reachable held id) : h.hooksRun.count hook = 1 := by
  refine he.told hmem (Option.eq_none_iff_forall_ne_some.mpr fun o ho => hlost ?_)
  exact hb.reachable_of_alive ho

end Entrusts

end Heap

end ObjectRuntime
