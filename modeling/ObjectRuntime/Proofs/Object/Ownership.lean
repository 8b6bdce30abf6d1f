import ObjectRuntime.Proofs.Object.Counting
import Mathlib
set_option autoImplicit false

/-!
# Heaps in which every reference is counted

`Heap.Owned h held` says of a whole heap that the count of each object is the number of references
to it: those of the list `held`, which are held outside, and those in the contents of objects.  A
destroyed object has none, and contents refer to one another without a cycle.  Every change of the
heap keeps this if the references that are held change with it, and a content may change while it
has one owner only.  So an object is there exactly as long as a reference to it is, and nothing is
left when nothing is held.
-/

namespace ObjectRuntime

namespace Heap

open Relation (ReflTransGen TransGen)

variable {κ : Type} {h h' h'' : Heap κ} {held held' keep ids : List ObjId} {id x y : ObjId}
  {o : Object κ} {payload : Payload κ}

/-! ## Exact counts -/

/-- The counts are the numbers of references held outside and in contents, no object that is there
is without a reference, and contents refer to one another without a cycle. -/
structure Owned (h : Heap κ) (held : List ObjId) : Prop where
  counted : ∀ x, h.count x = held.count x + h.mentions 0 x
  used : ∀ {x o}, h.get? x = some o → 0 < o.count
  ranked : ∃ rank : ObjId → Nat, ∀ {x o y}, h.get? x = some o → y ∈ o.payload.references →
    rank y < rank x

theorem count_of_get? (ho : h.get? id = some o) : h.count id = o.count := by
  simp only [count, ho, Option.map_some, Option.getD_some]

theorem count_of_dead (hid : h.get? id = none) : h.count id = 0 := by
  simp only [count, hid, Option.map_none, Option.getD_none]

theorem exists_of_count_pos (hpos : 0 < h.count id) : ∃ o, h.get? id = some o := by
  cases ho : h.get? id with
  | none => simp [count_of_dead ho] at hpos
  | some o => exact ⟨o, rfl⟩

theorem count_set (ho : h.get? id = some o) (o' : Option (Object κ)) (x : ObjId) :
    (h.set id o').count x = if x = id then (o'.map Object.count).getD 0 else h.count x := by
  by_cases hx : x = id
  · subst hx
    rw [if_pos rfl, count, get?_set_self ho]
  · rw [if_neg hx, count, get?_set_of_ne hx, count]

/-- A content that is mentioned is mentioned by an object. -/
theorem exists_of_mentions_pos (hpos : 0 < h.mentions 0 x) :
    ∃ id o, h.get? id = some o ∧ x ∈ o.payload.references := by
  obtain ⟨n, hn, hne⟩ : ∃ n ∈ (h.cells.toList.drop 0).map
      (fun cell => (cellReferences cell).count x), n ≠ 0 := by
    by_contra hall
    push Not at hall
    rw [mentions, List.sum_eq_zero hall] at hpos
    exact Nat.lt_irrefl 0 hpos
  obtain ⟨cell, hcell, rfl⟩ := List.mem_map.mp hn
  obtain ⟨i, hi, hcell⟩ := List.getElem_of_mem hcell
  have hx := List.count_pos_iff.mp (Nat.pos_of_ne_zero hne)
  cases cell with
  | none => cases hx
  | some o =>
      refine ⟨⟨i⟩, o, ?_, hx⟩
      simp only [List.drop_zero, Array.length_toList] at hi
      simp only [List.drop_zero, Array.getElem_toList] at hcell
      simp [get?, Array.getElem?_eq_getElem hi, hcell]

namespace Owned

theorem alive (hb : Owned h held) (hx : 0 < held.count x + h.mentions 0 x) :
    ∃ o, h.get? x = some o := exists_of_count_pos (by rw [hb.counted]; exact hx)

theorem alive_of_mem (hb : Owned h held) (hx : x ∈ held) : ∃ o, h.get? x = some o := by
  have := List.count_pos_iff.mpr hx
  exact hb.alive (by omega)

/-- What an object refers to is there. -/
theorem alive_of_reference (hb : Owned h held) (ho : h.get? id = some o)
    (hx : x ∈ o.payload.references) : ∃ o, h.get? x = some o := by
  have := mentions_pos ho (Nat.zero_le _) hx
  exact hb.alive (by omega)

theorem count_eq (hb : Owned h held) (ho : h.get? x = some o) :
    o.count = held.count x + h.mentions 0 x := (count_of_get? ho).symm.trans (hb.counted x)

/-- The order in which references are held does not matter. -/
theorem congr (hb : Owned h held) (hsame : ∀ x, keep.count x = held.count x) : Owned h keep :=
  ⟨fun x => by rw [hb.counted, hsame], hb.used, hb.ranked⟩

theorem perm (hb : Owned h held) (hp : List.Perm keep held) : Owned h keep :=
  hb.congr fun x => hp.count_eq x

/-- Nothing is there and nothing is held at the start. -/
theorem empty : Owned (empty : Heap κ) [] where
  counted x := by simp [count, get?, Heap.empty, mentions]
  used ho := by simp [get?, Heap.empty] at ho
  ranked := ⟨fun _ => 0, fun ho => by simp [get?, Heap.empty] at ho⟩

/-! ## Changes of counts -/

/-- An object is replaced by one with the same references.  Its count may change together with the
references held to it. -/
theorem replace (hb : Owned h held) (ho : h.get? id = some o) {o' : Object κ}
    (hreferences : o'.payload.references = o.payload.references) (hpos : 0 < o'.count)
    (hsame : ∀ x, x ≠ id → keep.count x = held.count x)
    (heq : o'.count = keep.count id + h.mentions 0 id) : Owned (h.set id (some o')) keep := by
  have hmentions : ∀ x, (h.set id (some o')).mentions 0 x = h.mentions 0 x := by
    intro x
    have := mentions_set ho (Nat.zero_le _) (some o') x
    simp only [cellReferences, hreferences] at this
    omega
  obtain ⟨rank, hrank⟩ := hb.ranked
  refine ⟨fun x => ?_, fun {x o₁} ho₁ => ?_, rank, fun {x o₁ y} ho₁ hy => ?_⟩
  · rw [count_set ho, hmentions]
    by_cases hx : x = id
    · subst hx
      rw [if_pos rfl]
      exact heq
    · rw [if_neg hx, hb.counted, hsame x hx]
  · by_cases hx : x = id
    · subst hx
      rw [get?_set_self ho] at ho₁
      cases ho₁
      exact hpos
    · rw [get?_set_of_ne hx] at ho₁
      exact hb.used ho₁
  · by_cases hx : x = id
    · subst hx
      rw [get?_set_self ho] at ho₁
      cases ho₁
      exact hrank ho (hreferences ▸ hy)
    · rw [get?_set_of_ne hx] at ho₁
      exact hrank ho₁ hy

/-- A count may change together with the references held to its object. -/
theorem recount (hb : Owned h held) (ho : h.get? id = some o) {n : Nat} (hn : 0 < n)
    (hsame : ∀ x, x ≠ id → keep.count x = held.count x)
    (heq : n = keep.count id + h.mentions 0 id) :
    Owned (h.set id (some { o with count := n })) keep := hb.replace ho rfl hn hsame heq

/-- The content of an object may change as long as the references in it stay. -/
theorem rewrite (hb : Owned h held) (ho : h.get? id = some o)
    (hreferences : payload.references = o.payload.references) :
    Owned (h.setPayload id payload) held := by
  have hused : 0 < o.count := hb.used ho
  have hcount : o.count = held.count id + h.mentions 0 id := hb.count_eq ho
  simp only [Heap.setPayload, ho]
  exact hb.replace ho hreferences hused (fun _ _ => rfl) hcount

theorem retain (hb : Owned h held) (ho : h.get? id = some o) :
    Owned (h.retain id) (id :: held) := by
  have hcount := hb.count_eq ho
  simp only [Heap.retain, ho]
  refine hb.recount ho (Nat.succ_pos _) (fun x hx => ?_) ?_
  · rw [List.count_cons_of_ne (Ne.symm hx)]
  · rw [List.count_cons_self]
    omega

/-- One of several references to an object is given up. -/
theorem decrement (hb : Owned h (id :: held)) (ho : h.get? id = some o) (hmany : 1 < o.count) :
    Owned (h.set id (some { o with count := o.count - 1 })) held := by
  have hcounted := hb.count_eq ho
  rw [List.count_cons_self] at hcounted
  refine hb.recount ho (by omega) (fun x hx => ?_) (by omega)
  rw [List.count_cons_of_ne (Ne.symm hx)]

/-! ## New and destroyed objects -/

/-- A new object takes over references that were held. -/
theorem alloc {typeIndex : Nat} (hb : Owned h (payload.references ++ held)) :
    Owned (h.alloc typeIndex payload).1 (⟨h.cells.size⟩ :: held) := by
  have hdead : ∀ {x : ObjId}, x.index = h.cells.size → h.get? x = none := by
    intro x hx
    cases ho : h.get? x with
    | none => rfl
    | some o => exact absurd (lt_size_of_get? ho) (by omega)
  have hfresh : ∀ {x : ObjId}, x.index = h.cells.size →
      payload.references.count x + held.count x + h.mentions 0 x = 0 := by
    intro x hx
    have := hb.counted x
    rw [count_of_dead (hdead hx), List.count_append] at this
    omega
  have hnew : ∀ {x : ObjId}, x.index = h.cells.size → x = ⟨h.cells.size⟩ := by
    rintro ⟨i⟩ rfl
    rfl
  obtain ⟨rank, hrank⟩ := hb.ranked
  have hbelow : ∀ {y}, y ∈ payload.references → y.index ≠ h.cells.size := by
    intro y hy heq
    have := hfresh heq
    have := List.count_pos_iff.mpr hy
    omega
  refine ⟨fun x => ?_, fun {x o} ho => ?_,
    fun x => if x.index = h.cells.size then ((payload.references.map rank).sum + 1) else rank x,
    fun {x o y} ho hy => ?_⟩
  · rw [mentions_alloc (Nat.zero_le _), count, get?_alloc]
    by_cases hx : x.index = h.cells.size
    · have := hfresh hx
      obtain rfl := hnew hx
      rw [if_pos rfl, List.count_cons_self]
      simp only [Option.map_some, Option.getD_some]
      omega
    · have hne : (⟨h.cells.size⟩ : ObjId) ≠ x := by
        rintro rfl
        exact hx rfl
      have := hb.counted x
      rw [List.count_append, count] at this
      rw [if_neg hx, List.count_cons_of_ne hne, this]
      omega
  · rw [get?_alloc] at ho
    split_ifs at ho
    · cases ho
      exact Nat.one_pos
    · exact hb.used ho
  · rw [get?_alloc] at ho
    split_ifs at ho with hx
    · cases ho
      simp only [if_pos hx, if_neg (hbelow hy)]
      exact Nat.lt_succ_of_le (List.single_le_sum (fun _ _ => Nat.zero_le _) _
        (List.mem_map_of_mem hy))
    · have hyold : y.index ≠ h.cells.size := by
        intro heq
        have := hfresh heq
        have := mentions_pos ho (Nat.zero_le _) hy
        omega
      simp only [if_neg hx, if_neg hyold]
      exact hrank ho hy

/-- The last reference to an object is given up: the references in its content are held instead. -/
theorem destroy (hb : Owned h (id :: held)) (ho : h.get? id = some o) (hone : o.count ≤ 1) :
    Owned (h.destroy id o) (o.payload.references ++ held) := by
  have hcounted := hb.count_eq ho
  rw [List.count_cons_self] at hcounted
  have hmentions : ∀ x, (h.destroy id o).mentions 0 x + o.payload.references.count x =
      h.mentions 0 x := by
    intro x
    have := mentions_set ho (Nat.zero_le _) none x
    simp only [cellReferences, List.count_nil, Nat.add_zero] at this
    exact this
  have hget : ∀ x, x ≠ id → (h.destroy id o).get? x = h.get? x :=
    fun x hx => get?_set_of_ne hx none
  have hgone : (h.destroy id o).get? id = none := get?_set_self ho none
  obtain ⟨rank, hrank⟩ := hb.ranked
  refine ⟨fun x => ?_, fun {x o'} ho' => ?_, rank, fun {x o' y} ho' hy => ?_⟩
  · have := hmentions x
    rw [List.count_append]
    by_cases hx : x = id
    · subst hx
      rw [count_of_dead hgone]
      omega
    · have hcount := hb.counted x
      rw [List.count_cons_of_ne (Ne.symm hx)] at hcount
      rw [count, hget x hx, ← count, hcount]
      omega
  · by_cases hx : x = id
    · subst hx
      rw [hgone] at ho'
      cases ho'
    · rw [hget x hx] at ho'
      exact hb.used ho'
  · by_cases hx : x = id
    · subst hx
      rw [hgone] at ho'
      cases ho'
    · rw [hget x hx] at ho'
      exact hrank ho' hy

/-! ## Contents that change -/

/-- The content of an object changes while the one reference to it is held.  The references that it
no longer holds are held outside afterwards, and those that it takes up were. -/
theorem setPayload (hb : Owned h held) (ho : h.get? id = some o) (hone : o.count = 1)
    (hkeep : id ∈ keep) (hsame : ∀ x, keep.count x + payload.references.count x =
      held.count x + o.payload.references.count x) :
    Owned (h.setPayload id payload) keep := by
  obtain ⟨rank, hrank⟩ := hb.ranked
  have hcounted := hb.count_eq ho
  have hself : o.payload.references.count id = 0 :=
    List.count_eq_zero.mpr fun hid => Nat.lt_irrefl _ (hrank ho hid)
  have hmentioned : h.mentions 0 id = 0 ∧ id ∉ payload.references := by
    have hkept := List.count_pos_iff.mpr hkeep
    have := hsame id
    rw [← List.count_eq_zero]
    omega
  have hmentions : ∀ x, (h.set id (some { o with payload })).mentions 0 x +
      o.payload.references.count x = h.mentions 0 x + payload.references.count x :=
    mentions_set ho (Nat.zero_le _) _
  simp only [Heap.setPayload, ho]
  refine ⟨fun x => ?_, fun {x o'} ho' => ?_,
    fun x => if x = id then ((payload.references.map rank).sum + 1) else rank x,
    fun {x o' y} ho' hy => ?_⟩
  · have hmention := hmentions x
    have hsame := hsame x
    have hcount := hb.counted x
    rw [count_set ho]
    by_cases hx : x = id
    · subst hx
      rw [count_of_get? ho] at hcount
      rw [if_pos rfl]
      simp only [Option.map_some, Option.getD_some]
      omega
    · rw [if_neg hx]
      omega
  · by_cases hx : x = id
    · subst hx
      rw [get?_set_self ho] at ho'
      cases ho'
      have hused := hb.used ho
      exact hused
    · rw [get?_set_of_ne hx] at ho'
      exact hb.used ho'
  · by_cases hx : x = id
    · subst hx
      rw [get?_set_self ho] at ho'
      cases ho'
      have hne : y ≠ x := by
        rintro rfl
        exact hmentioned.2 hy
      simp only [if_pos, if_neg hne]
      exact Nat.lt_succ_of_le (List.single_le_sum (fun _ _ => Nat.zero_le _) _
        (List.mem_map_of_mem hy))
    · rw [get?_set_of_ne hx] at ho'
      have hne : y ≠ id := by
        rintro rfl
        have := mentions_pos ho' (Nat.zero_le _) hy
        omega
      simp only [if_neg hx, if_neg hne]
      exact hrank ho' hy

end Owned

/-! ## Giving up references -/

theorem totalWeight_eq (h : Heap κ) : h.totalWeight = (h.cells.toList.map weight).sum := by
  have hfold : ∀ (cells : List (Option (Object κ))) (n : Nat),
      cells.foldl (fun n cell => n + weight cell) n = n + (cells.map weight).sum := by
    intro cells
    induction cells with
    | nil => intro n; rfl
    | cons cell cells ih =>
        intro n
        rw [List.foldl_cons, ih, List.map_cons, List.sum_cons, Nat.add_assoc]
  rw [totalWeight, ← Array.foldl_toList, hfold, Nat.zero_add]

theorem totalWeight_set (ho : h.get? id = some o) (o' : Option (Object κ)) :
    (h.set id o').totalWeight + weight (some o) = h.totalWeight + weight o' := by
  have hlt := lt_size_of_get? ho
  have hi : id.index < h.cells.toList.length := by simpa using hlt
  have hcell : h.cells.toList[id.index] = some o := by
    simpa [get?, Array.getElem?_eq_getElem hlt] using ho
  have hsum := sum_map_set weight h.cells.toList id.index o' hi
  rw [hcell] at hsum
  rw [totalWeight_eq, totalWeight_eq, set, Array.toList_setIfInBounds]
  exact hsum

namespace Owned

/-- Giving up references keeps the others counted, if there is fuel for all that is destroyed. -/
theorem releaseWithin (fuel : Nat) (hb : Owned h (ids ++ keep))
    (hfuel : h.totalWeight + ids.length ≤ fuel) : Owned (Heap.releaseWithin fuel h ids) keep := by
  induction fuel generalizing h ids with
  | zero =>
      obtain rfl := List.length_eq_zero_iff.mp (Nat.eq_zero_of_add_eq_zero_left (Nat.le_zero.mp hfuel))
      exact hb
  | succ fuel ih =>
      cases ids with
      | nil => exact hb
      | cons id rest =>
          obtain ⟨o, ho⟩ := hb.alive_of_mem List.mem_cons_self
          rw [List.length_cons] at hfuel
          simp only [Heap.releaseWithin, ho]
          split
          · rename_i hmany
            have hweight := totalWeight_set ho (some { o with count := o.count - 1 })
            simp only [weight] at hweight
            exact ih (hb.decrement ho hmany) (by omega)
          · rename_i hfew
            have hweight := totalWeight_set ho none
            simp only [weight] at hweight
            refine ih ?_ ?_
            · rw [List.append_assoc]
              exact hb.destroy ho (Nat.le_of_not_lt hfew)
            · have hsame : (h.destroy id o).totalWeight = (h.set id none).totalWeight := rfl
              rw [hsame, List.length_append]
              omega

theorem release (hb : Owned h (id :: keep)) : Owned (h.release id) keep := by
  obtain ⟨o, ho⟩ := hb.alive_of_mem List.mem_cons_self
  simp only [Heap.release, ho]
  split
  · rename_i hmany
    exact hb.decrement ho hmany
  · exact Owned.releaseWithin _ (show Owned h ([id] ++ keep) from hb) (Nat.le_refl _)

/-- Giving up one reference after another keeps the others counted. -/
theorem releases (hb : Owned h (ids ++ keep)) : Owned (ids.foldl Heap.release h) keep := by
  induction ids generalizing h with
  | nil => exact hb
  | cons id ids ih => exact ih hb.release

theorem runHooks (hb : Owned h held) (payload : Payload κ) : Owned (h.runHooks payload) held :=
  ⟨hb.counted, hb.used, hb.ranked⟩

theorem discard (hb : Owned h (payload.references ++ keep)) : Owned (h.discard payload) keep :=
  (hb.runHooks payload).releases

/-- Adding a reference to each of some objects. -/
theorem retainAll (hb : Owned h held) (hids : ∀ x ∈ ids, ∃ o, h.get? x = some o) :
    Owned (h.retainAll ids) (ids ++ held) := by
  induction ids generalizing h held with
  | nil => exact hb
  | cons id ids ih =>
      obtain ⟨⟨o, ho⟩, hids⟩ := List.forall_mem_cons.mp hids
      have hrest : Owned ((h.retain id).retainAll ids) (ids ++ id :: held) := by
        refine ih (hb.retain ho) fun x hx => ?_
        obtain ⟨o, ho⟩ := hids x hx
        obtain ⟨n, hn⟩ := grown_retain h id x o ho
        exact ⟨_, hn⟩
      exact hrest.perm List.perm_middle.symm

end Owned

/-! ## What can be reached -/

/-- One object refers to another. -/
def Refers (h : Heap κ) (a b : ObjId) : Prop := ∃ o, h.get? a = some o ∧ b ∈ o.payload.references

/-- The object is held, or below one that is. -/
def Reachable (h : Heap κ) (held : List ObjId) (x : ObjId) : Prop :=
  ∃ r ∈ held, ReflTransGen h.Refers r x

theorem Reachable.of_mem (hx : x ∈ held) : h.Reachable held x := ⟨x, hx, .refl⟩

theorem Reachable.step (hx : h.Reachable held x) (ho : h.get? x = some o)
    (hy : y ∈ o.payload.references) : h.Reachable held y := by
  obtain ⟨r, hr, hreach⟩ := hx
  exact ⟨r, hr, hreach.tail ⟨o, ho, hy⟩⟩

theorem Reachable.mono (hx : h.Reachable held x) (hsub : ∀ r ∈ held, r ∈ held') :
    h.Reachable held' x := by
  obtain ⟨r, hr, hreach⟩ := hx
  exact ⟨r, hsub r hr, hreach⟩

namespace Owned

theorem alive_of_reachable (hb : Owned h held) (hx : h.Reachable held x) :
    ∃ o, h.get? x = some o := by
  obtain ⟨r, hr, hreach⟩ := hx
  cases hreach with
  | refl => exact hb.alive_of_mem hr
  | tail _ hlast =>
      obtain ⟨o, ho, hx⟩ := hlast
      exact hb.alive_of_reference ho hx

/-- No object holds itself, directly or through others. -/
theorem acyclic (hb : Owned h held) (x : ObjId) : ¬ TransGen h.Refers x x := by
  obtain ⟨rank, hrank⟩ := hb.ranked
  have hlt : ∀ {x y}, TransGen h.Refers x y → rank y < rank x := by
    intro x y hxy
    induction hxy with
    | single hstep =>
        obtain ⟨o, ho, hy⟩ := hstep
        exact hrank ho hy
    | tail _ hstep ih =>
        obtain ⟨o, ho, hy⟩ := hstep
        exact Nat.lt_trans (hrank ho hy) ih
  exact fun hcycle => Nat.lt_irrefl _ (hlt hcycle)

/-- Whatever is there can be reached from what is held. -/
theorem reachable_of_alive (hb : Owned h held) (ho : h.get? x = some o) : h.Reachable held x := by
  obtain ⟨rank, hrank⟩ := hb.ranked
  -- an object that is mentioned is mentioned by one of greater rank, and ranks are bounded
  have hbound : ∃ bound, ∀ {x o}, h.get? x = some o → rank x ≤ bound := by
    refine ⟨((List.range h.cells.size).map fun i => rank ⟨i⟩).sum, fun {x o} ho => ?_⟩
    exact List.single_le_sum (fun _ _ => Nat.zero_le _) _
      (List.mem_map.mpr ⟨x.index, List.mem_range.mpr (lt_size_of_get? ho), rfl⟩)
  obtain ⟨bound, hbound⟩ := hbound
  induction hdistance : bound - rank x using Nat.strong_induction_on generalizing x o with
  | _ distance ih =>
      have hpos := hb.used ho
      rw [hb.count_eq ho] at hpos
      by_cases hmem : x ∈ held
      · exact .of_mem hmem
      · rw [List.count_eq_zero_of_not_mem hmem, Nat.zero_add] at hpos
        obtain ⟨z, oz, hz, hx⟩ := exists_of_mentions_pos hpos
        have hlt := hrank hz hx
        have hle := hbound hz
        exact (ih (bound - rank z) (by omega) hz rfl).step hz hx

/-- Nothing is left when nothing is held. -/
theorem dead_of_nil (hb : Owned h []) (x : ObjId) : h.get? x = none := by
  cases ho : h.get? x with
  | none => rfl
  | some o =>
      obtain ⟨r, hr, -⟩ := hb.reachable_of_alive ho
      cases hr

end Owned

/-! ## What others hold -/

/-- Whatever can be reached from what is held is still there, with the same type and content. -/
def Intact (held : List ObjId) (h h' : Heap κ) : Prop :=
  ∀ x o, h.Reachable held x → h.get? x = some o → ∃ n, h'.get? x = some { o with count := n }

namespace Intact

theorem refl (held : List ObjId) (h : Heap κ) : Intact held h h := fun _ _ _ ho => ⟨_, ho⟩

theorem mono (hi : Intact held h h') (hsub : ∀ r ∈ keep, r ∈ held) : Intact keep h h' :=
  fun x o hx ho => hi x o (hx.mono hsub) ho

theorem reachable (hi : Intact held h h') (hx : h.Reachable held x) : h'.Reachable held x := by
  obtain ⟨r, hr, hreach⟩ := hx
  refine ⟨r, hr, ?_⟩
  induction hreach with
  | refl => exact .refl
  | @tail y z hy hstep ih =>
      obtain ⟨o, ho, hz⟩ := hstep
      obtain ⟨n, hn⟩ := hi y o ⟨r, hr, hy⟩ ho
      exact ih.tail ⟨_, hn, hz⟩

theorem trans (hi : Intact held h h') (hi' : Intact held h' h'') : Intact held h h'' := by
  intro x o hx ho
  obtain ⟨n, hn⟩ := hi x o hx ho
  obtain ⟨m, hm⟩ := hi' x _ (hi.reachable hx) hn
  exact ⟨m, hm⟩

theorem of_grown (hg : Grown h h') : Intact held h h' := fun x o _ ho => hg x o ho

/-- What goes away while the rest stays counted was not held. -/
theorem of_shrunk (hg : Grown h' h) (hb' : Owned h' held) : Intact held h h' := by
  have hstep : ∀ {x}, h.Reachable held x → ∃ o', h'.get? x = some o' := by
    rintro x ⟨r, hr, hreach⟩
    induction hreach with
    | refl => exact hb'.alive_of_mem hr
    | tail _ hstep ih =>
        obtain ⟨o, ho, hy⟩ := hstep
        obtain ⟨o', ho'⟩ := ih
        obtain ⟨n, hn⟩ := hg _ _ ho'
        obtain rfl := Option.some.inj (ho.symm.trans hn)
        exact hb'.alive_of_reference ho' hy
  intro x o hx ho
  obtain ⟨o', ho'⟩ := hstep hx
  obtain ⟨n, hn⟩ := hg _ _ ho'
  obtain rfl := Option.some.inj (ho.symm.trans hn)
  exact ⟨o'.count, ho'⟩

/-- An object that can be reached from nothing that is held may change. -/
theorem of_unreached (hid : ¬ h.Reachable held id) (o' : Option (Object κ)) :
    Intact held h (h.set id o') := by
  intro x o hx ho
  have hne : x ≠ id := by
    rintro rfl
    exact hid hx
  exact ⟨o.count, (get?_set_of_ne hne o').trans ho⟩

end Intact

/-- The one reference to an object leaves no way to it from other references. -/
theorem Owned.not_reachable (hb : Owned h (id :: held)) (hone : h.count id = 1) :
    ¬ h.Reachable held id := by
  have hcounted := hb.counted id
  rw [List.count_cons_self] at hcounted
  rintro ⟨r, hr, hreach⟩
  rcases ReflTransGen.cases_tail hreach with heq | ⟨y, -, o, ho, hid⟩
  · subst heq
    have := List.count_pos_iff.mpr hr
    omega
  · have := mentions_pos ho (Nat.zero_le _) hid
    omega

end Heap

end ObjectRuntime
