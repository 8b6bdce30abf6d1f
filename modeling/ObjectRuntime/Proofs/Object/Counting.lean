import ObjectRuntime.Object.Heap
import Mathlib
set_option autoImplicit false

/-!
# Reference counts and the references they count

A part of a program makes objects and holds references to them.  `Heap.Backed` says that the count
of each of its objects covers the references that the part holds and those in the contents of its
objects, and that none of these dangle.  Making an object, adding a reference and giving references
up keep it, whatever is destroyed on the way, so what can be reached from a reference that is kept
is still there afterwards.
-/

namespace ObjectRuntime

namespace Heap

variable {κ : Type} {h h' : Heap κ} {base : Nat} {held keep ids : List ObjId} {id x : ObjId}
  {o : Object κ} {payload : Payload κ}

/-! ## Looking up -/

theorem lt_size_of_get? (ho : h.get? id = some o) : id.index < h.cells.size := by
  by_contra hge
  simp [get?, Array.getElem?_eq_none (Nat.le_of_not_lt hge)] at ho

theorem get?_set (h : Heap κ) (id x : ObjId) (o : Option (Object κ)) :
    (h.set id o).get? x = if x = id ∧ id.index < h.cells.size then o else h.get? x := by
  obtain ⟨i⟩ := id
  obtain ⟨j⟩ := x
  by_cases hij : j = i
  · subst hij
    by_cases hlt : j < h.cells.size
    · simp [get?, set, hlt]
    · simp [get?, set, hlt]
  · simp [get?, set, hij, Ne.symm hij]

theorem get?_set_self (ho : h.get? id = some o) (o' : Option (Object κ)) :
    (h.set id o').get? id = o' := by
  rw [get?_set, if_pos ⟨rfl, lt_size_of_get? ho⟩]

theorem get?_set_of_ne (hx : x ≠ id) (o' : Option (Object κ)) :
    (h.set id o').get? x = h.get? x := by
  rw [get?_set, if_neg fun hand => hx hand.1]

/-- An object that is replaced by itself. -/
theorem set_of_get? (ho : h.get? id = some o) : h.set id (some o) = h := by
  have hcells : h.cells.setIfInBounds id.index (some o) = h.cells := by
    refine Array.ext (by simp) fun i hi hi' => ?_
    rw [Array.getElem_setIfInBounds]
    split
    · rename_i heq
      subst heq
      have hcell := Option.join_eq_some_iff.mp ho
      rw [Array.getElem?_eq_getElem hi'] at hcell
      exact (Option.some.inj hcell).symm
    · rfl
  rw [set, hcells]

theorem get?_alloc (h : Heap κ) (typeIndex : Nat) (payload : Payload κ) (x : ObjId) :
    (h.alloc typeIndex payload).1.get? x =
      if x.index = h.cells.size then some ⟨typeIndex, 1, payload⟩ else h.get? x := by
  by_cases hx : x.index = h.cells.size
  · simp [get?, alloc, hx]
  · simp [get?, alloc, Array.getElem?_push, hx]

@[simp] theorem size_set (h : Heap κ) (id : ObjId) (o : Option (Object κ)) :
    (h.set id o).cells.size = h.cells.size := by simp [set]

@[simp] theorem size_alloc (h : Heap κ) (typeIndex : Nat) (payload : Payload κ) :
    (h.alloc typeIndex payload).1.cells.size = h.cells.size + 1 := by simp [alloc]

@[simp] theorem size_retain (h : Heap κ) (id : ObjId) :
    (h.retain id).cells.size = h.cells.size := by
  unfold retain
  split
  · exact size_set h id _
  · rfl

@[simp] theorem size_retainAll (h : Heap κ) (ids : List ObjId) :
    (h.retainAll ids).cells.size = h.cells.size := by
  induction ids generalizing h with
  | nil => rfl
  | cons id ids ih => exact (ih (h.retain id)).trans (size_retain h id)

/-! ## References in contents -/

/-- The references held by an object; a destroyed one holds none. -/
def cellReferences : Option (Object κ) → List ObjId
  | some o => o.payload.references
  | none => []

/-- How often the objects from a name on refer to an object. -/
def mentions (h : Heap κ) (base : Nat) (x : ObjId) : Nat :=
  ((h.cells.toList.drop base).map fun cell => (cellReferences cell).count x).sum

theorem sum_map_set {α : Type} (f : α → Nat) :
    ∀ (as : List α) (i : Nat) (a : α) (hi : i < as.length),
      ((as.set i a).map f).sum + f as[i] = (as.map f).sum + f a
  | b :: as, 0, a, _ => by
      simp only [List.set_cons_zero, List.map_cons, List.sum_cons, List.getElem_cons_zero]
      omega
  | b :: as, i + 1, a, hi => by
      have ih := sum_map_set f as i a (Nat.lt_of_succ_lt_succ hi)
      simp only [List.set_cons_succ, List.map_cons, List.sum_cons, List.getElem_cons_succ]
      omega

/-- Replacing an object replaces its references. -/
theorem mentions_set (ho : h.get? id = some o) (hbase : base ≤ id.index) (o' : Option (Object κ))
    (x : ObjId) :
    (h.set id o').mentions base x + o.payload.references.count x =
      h.mentions base x + (cellReferences o').count x := by
  have hlt := lt_size_of_get? ho
  have hi : id.index - base < (h.cells.toList.drop base).length := by
    simp only [List.length_drop, Array.length_toList]
    omega
  have hcell : (h.cells.toList.drop base)[id.index - base] = some o := by
    simp only [List.getElem_drop, Array.getElem_toList, Nat.add_sub_cancel' hbase]
    simpa [get?, Array.getElem?_eq_getElem hlt] using ho
  have hset : (h.set id o').cells.toList.drop base =
      (h.cells.toList.drop base).set (id.index - base) o' := by
    simp only [set, Array.toList_setIfInBounds, List.drop_set]
    rw [if_neg (Nat.not_lt.mpr hbase)]
  have hsum := sum_map_set (fun cell => (cellReferences cell).count x) _ _ o' hi
  rw [hcell] at hsum
  rw [mentions, hset]
  exact hsum

/-- A new object adds its references. -/
theorem mentions_alloc (hbase : base ≤ h.cells.size) (typeIndex : Nat) (payload : Payload κ)
    (x : ObjId) :
    (h.alloc typeIndex payload).1.mentions base x =
      h.mentions base x + payload.references.count x := by
  simp [mentions, alloc, List.drop_append_of_le_length, hbase, cellReferences]

/-- What an object refers to is mentioned. -/
theorem mentions_pos (ho : h.get? id = some o) (hbase : base ≤ id.index)
    (hx : x ∈ o.payload.references) : 0 < h.mentions base x := by
  have hset := mentions_set ho hbase none x
  have hcount := List.count_pos_iff.mpr hx
  simp only [cellReferences, List.count_nil] at hset
  omega

/-! ## Counts that cover all references -/

/-- The counts of the objects from `base` on cover the references held and those in the contents of
these objects, and none of the references dangles or leads to an object before `base`. -/
structure Backed (h : Heap κ) (base : Nat) (held : List ObjId) : Prop where
  alive : ∀ {x}, 0 < held.count x + h.mentions base x → base ≤ x.index ∧ ∃ o, h.get? x = some o
  counted : ∀ {x o}, base ≤ x.index → h.get? x = some o →
    held.count x + h.mentions base x ≤ o.count

namespace Backed

/-- Before any object is made nothing is held. -/
theorem start (h : Heap κ) : Backed h h.cells.size [] := by
  have hnone : ∀ x, h.mentions h.cells.size x = 0 := by
    intro x
    simp [mentions, List.drop_of_length_le]
  constructor
  case alive =>
    intro x hx
    simp [hnone] at hx
  case counted =>
    intro x o _ _
    simp [hnone]

/-- What is held may be forgotten. -/
theorem mono (hb : Backed h base held) (hle : ∀ x, keep.count x ≤ held.count x) :
    Backed h base keep := by
  constructor
  case alive =>
    intro x hx
    have := hle x
    exact hb.alive (by omega)
  case counted =>
    intro x o hx ho
    have := hle x
    have := hb.counted hx ho
    omega

theorem alive_of_mem (hb : Backed h base held) (hx : x ∈ held) :
    base ≤ x.index ∧ ∃ o, h.get? x = some o := by
  have := List.count_pos_iff.mpr hx
  exact hb.alive (by omega)

/-- What an object refers to is alive. -/
theorem alive_of_reference (hb : Backed h base held) (ho : h.get? id = some o)
    (hid : base ≤ id.index) (hx : x ∈ o.payload.references) :
    base ≤ x.index ∧ ∃ o, h.get? x = some o := by
  have := mentions_pos ho hid hx
  exact hb.alive (by omega)

/-- A count may change together with the references held to its object. -/
theorem recount (hb : Backed h base held) (ho : h.get? id = some o) (hid : base ≤ id.index)
    {n : Nat} (hsame : ∀ x, x ≠ id → keep.count x = held.count x)
    (hn : keep.count id + h.mentions base id ≤ n) :
    Backed (h.set id (some { o with count := n })) base keep := by
  have hmentions : ∀ x, (h.set id (some { o with count := n })).mentions base x =
      h.mentions base x := by
    intro x
    have := mentions_set ho hid (some { o with count := n }) x
    simp only [cellReferences] at this
    omega
  constructor
  case alive =>
    intro x hx
    by_cases heq : x = id
    · subst heq
      exact ⟨hid, _, get?_set_self ho _⟩
    · rw [hmentions, hsame x heq] at hx
      rw [get?_set_of_ne heq]
      exact hb.alive hx
  case counted =>
    intro x o' hx ho'
    rw [hmentions]
    by_cases heq : x = id
    · subst heq
      rw [get?_set_self ho] at ho'
      cases ho'
      exact hn
    · rw [get?_set_of_ne heq] at ho'
      rw [hsame x heq]
      exact hb.counted hx ho'

theorem retain (hb : Backed h base held) (ho : h.get? id = some o) (hid : base ≤ id.index) :
    Backed (h.retain id) base (id :: held) := by
  have hcount := hb.counted hid ho
  simp only [Heap.retain, ho]
  refine hb.recount ho hid (fun x hx => ?_) ?_
  · rw [List.count_cons_of_ne (Ne.symm hx)]
  · rw [List.count_cons_self]
    omega

/-- Adding a reference to each of some objects that are held. -/
theorem retainAll (hb : Backed h base held) (hids : ∀ x ∈ ids, x ∈ held) :
    Backed (h.retainAll ids) base (ids ++ held) := by
  induction ids generalizing h held with
  | nil => exact hb
  | cons id ids ih =>
      obtain ⟨hid, hids⟩ := List.forall_mem_cons.mp hids
      obtain ⟨hle, o, ho⟩ := hb.alive_of_mem hid
      have hrest := ih (hb.retain ho hle) fun x hx => List.mem_cons_of_mem id (hids x hx)
      exact hrest.mono fun x => Nat.le_of_eq (List.perm_middle.count_eq x).symm

/-- A new object takes over references that were held. -/
theorem alloc {typeIndex : Nat} (hb : Backed h base (payload.references ++ held))
    (hbase : base ≤ h.cells.size) :
    Backed (h.alloc typeIndex payload).1 base (⟨h.cells.size⟩ :: held) := by
  have hfresh : ∀ {x : ObjId}, x.index = h.cells.size →
      (payload.references ++ held).count x + h.mentions base x = 0 := by
    intro x hx
    by_contra hpos
    obtain ⟨-, o, ho⟩ := hb.alive (Nat.pos_of_ne_zero hpos)
    have := lt_size_of_get? ho
    omega
  have hne : ∀ {x : ObjId}, x.index ≠ h.cells.size → (⟨h.cells.size⟩ : ObjId) ≠ x := by
    rintro x hx rfl
    exact hx rfl
  simp only [List.count_append] at hfresh
  constructor
  case alive =>
    intro x hx
    rw [mentions_alloc hbase] at hx
    rw [get?_alloc]
    by_cases hnew : x.index = h.cells.size
    · rw [if_pos hnew]
      exact ⟨hnew ▸ hbase, _, rfl⟩
    · rw [if_neg hnew]
      rw [List.count_cons_of_ne (hne hnew)] at hx
      refine hb.alive ?_
      rw [List.count_append]
      omega
  case counted =>
    intro x o hx ho
    rw [mentions_alloc hbase]
    rw [get?_alloc] at ho
    by_cases hnew : x.index = h.cells.size
    · rw [if_pos hnew] at ho
      cases ho
      have := hfresh hnew
      have hle : (⟨h.cells.size⟩ :: held).count x ≤ held.count x + 1 := by
        rw [List.count_cons]
        split <;> omega
      dsimp only
      omega
    · rw [if_neg hnew] at ho
      rw [List.count_cons_of_ne (hne hnew)]
      have := hb.counted hx ho
      rw [List.count_append] at this
      omega

/-- The last reference to an object is given up: the references in its content are held instead. -/
theorem destroy (hb : Backed h base (id :: held)) (ho : h.get? id = some o) (hone : o.count ≤ 1) :
    Backed (h.destroy id o) base (o.payload.references ++ held) := by
  obtain ⟨hid, -⟩ := hb.alive_of_mem List.mem_cons_self
  have hcounted := hb.counted hid ho
  have hmentions : ∀ x, (h.destroy id o).mentions base x + o.payload.references.count x =
      h.mentions base x := by
    intro x
    have := mentions_set ho hid none x
    simp only [cellReferences, List.count_nil, Nat.add_zero] at this
    exact this
  have hget : ∀ x, x ≠ id → (h.destroy id o).get? x = h.get? x :=
    fun x hx => get?_set_of_ne hx none
  rw [List.count_cons_self] at hcounted
  constructor
  case alive =>
    intro x hx
    have := hmentions x
    rw [List.count_append] at hx
    by_cases heq : x = id
    · subst heq
      omega
    · rw [hget x heq]
      refine hb.alive ?_
      rw [List.count_cons_of_ne (Ne.symm heq)]
      omega
  case counted =>
    intro x o' hx ho'
    have := hmentions x
    rw [List.count_append]
    by_cases heq : x = id
    · subst heq
      have hgone : (h.destroy x o).get? x = none := get?_set_self ho none
      rw [hgone] at ho'
      cases ho'
    · rw [hget x heq] at ho'
      have := hb.counted hx ho'
      rw [List.count_cons_of_ne (Ne.symm heq)] at this
      omega

/-- One of several references to an object is given up. -/
theorem decrement (hb : Backed h base (id :: held)) (ho : h.get? id = some o) :
    Backed (h.set id (some { o with count := o.count - 1 })) base held := by
  obtain ⟨hid, -⟩ := hb.alive_of_mem List.mem_cons_self
  have hcounted := hb.counted hid ho
  rw [List.count_cons_self] at hcounted
  refine hb.recount ho hid (fun x hx => ?_) (by omega)
  rw [List.count_cons_of_ne (Ne.symm hx)]

/-- Giving up references keeps what the others need. -/
theorem releaseWithin (fuel : Nat) (hb : Backed h base (ids ++ keep)) :
    Backed (Heap.releaseWithin fuel h ids) base keep := by
  have hforget : ∀ {h : Heap κ} {ids : List ObjId}, Backed h base (ids ++ keep) →
      Backed h base keep := by
    intro h ids hb
    refine hb.mono fun x => ?_
    rw [List.count_append]
    omega
  induction fuel generalizing h ids with
  | zero => exact hforget hb
  | succ fuel ih =>
      cases ids with
      | nil => exact hb
      | cons id rest =>
          obtain ⟨-, o, ho⟩ := hb.alive_of_mem List.mem_cons_self
          simp only [Heap.releaseWithin, ho]
          split
          · exact ih (hb.decrement ho)
          · rename_i hcount
            refine ih ?_
            rw [List.append_assoc]
            exact hb.destroy ho (Nat.le_of_not_lt hcount)

theorem release (hb : Backed h base (id :: keep)) : Backed (h.release id) base keep := by
  obtain ⟨-, o, ho⟩ := hb.alive_of_mem List.mem_cons_self
  simp only [Heap.release, ho]
  split
  · exact hb.decrement ho
  · exact Backed.releaseWithin _ (show Backed h base ([id] ++ keep) from hb)

/-- Giving up one reference after another keeps what the others need. -/
theorem releases (hb : Backed h base (ids ++ keep)) :
    Backed (ids.foldl Heap.release h) base keep := by
  induction ids generalizing h with
  | nil => exact hb
  | cons id ids ih => exact ih hb.release

/-! ### Objects before the others -/

theorem ne_of_lt (hb : Backed h base held) (hid : id ∈ held) (hx : x.index < base) : x ≠ id := by
  rintro rfl
  exact Nat.not_le.mpr hx (hb.alive_of_mem hid).1

theorem get?_releaseWithin (fuel : Nat) (hb : Backed h base (ids ++ keep)) (hx : x.index < base) :
    (Heap.releaseWithin fuel h ids).get? x = h.get? x := by
  induction fuel generalizing h ids with
  | zero => rfl
  | succ fuel ih =>
      cases ids with
      | nil => rfl
      | cons id rest =>
          obtain ⟨-, o, ho⟩ := hb.alive_of_mem List.mem_cons_self
          have hne := hb.ne_of_lt List.mem_cons_self hx
          simp only [Heap.releaseWithin, ho]
          split
          · exact (ih (hb.decrement ho)).trans (get?_set_of_ne hne _)
          · rename_i hcount
            have hrest : Backed (h.destroy id o) base ((o.payload.references ++ rest) ++ keep) := by
              rw [List.append_assoc]
              exact hb.destroy ho (Nat.le_of_not_lt hcount)
            exact (ih hrest).trans (get?_set_of_ne hne none)

theorem get?_release (hb : Backed h base (id :: keep)) (hx : x.index < base) :
    (h.release id).get? x = h.get? x := by
  obtain ⟨-, o, ho⟩ := hb.alive_of_mem List.mem_cons_self
  simp only [Heap.release, ho]
  split
  · exact get?_set_of_ne (hb.ne_of_lt List.mem_cons_self hx) _
  · exact get?_releaseWithin _ (show Backed h base ([id] ++ keep) from hb) hx

/-- Giving up references does not touch objects from before. -/
theorem get?_releases (hb : Backed h base (ids ++ keep)) (hx : x.index < base) :
    (ids.foldl Heap.release h).get? x = h.get? x := by
  induction ids generalizing h with
  | nil => rfl
  | cons id ids ih => exact (ih hb.release).trans (hb.get?_release hx)

end Backed

/-! ## What stays -/

/-- Every object of `h` is in `h'`, with the same type and content. -/
def Grown (h h' : Heap κ) : Prop :=
  ∀ x o, h.get? x = some o → ∃ n, h'.get? x = some { o with count := n }

theorem Grown.refl (h : Heap κ) : Grown h h := fun _ o ho => ⟨o.count, ho⟩

theorem Grown.trans {h₁ h₂ h₃ : Heap κ} (h₁₂ : Grown h₁ h₂) (h₂₃ : Grown h₂ h₃) : Grown h₁ h₃ := by
  intro x o ho
  obtain ⟨n, hn⟩ := h₁₂ x o ho
  obtain ⟨m, hm⟩ := h₂₃ x _ hn
  exact ⟨m, hm⟩

theorem grown_alloc (h : Heap κ) (typeIndex : Nat) (payload : Payload κ) :
    Grown h (h.alloc typeIndex payload).1 := by
  intro x o ho
  refine ⟨o.count, ?_⟩
  rw [get?_alloc, if_neg (Nat.ne_of_lt (lt_size_of_get? ho))]
  exact ho

theorem grown_set_count (ho : h.get? id = some o) (n : Nat) :
    Grown h (h.set id (some { o with count := n })) := by
  intro x o' ho'
  by_cases hx : x = id
  · subst hx
    obtain rfl := Option.some.inj (ho.symm.trans ho')
    exact ⟨n, get?_set_self ho _⟩
  · exact ⟨o'.count, (get?_set_of_ne hx _).trans ho'⟩

theorem grown_retain (h : Heap κ) (id : ObjId) : Grown h (h.retain id) := by
  unfold retain
  split
  · rename_i o ho
    exact grown_set_count ho _
  · exact .refl h

theorem grown_retainAll (h : Heap κ) (ids : List ObjId) : Grown h (h.retainAll ids) := by
  induction ids generalizing h with
  | nil => exact .refl h
  | cons id ids ih => exact (grown_retain h id).trans (ih (h.retain id))

/-- Lowering a count makes no object and changes no content. -/
theorem grown_of_set_count (ho : h.get? id = some o) (n : Nat) :
    Grown (h.set id (some { o with count := n })) h := by
  intro x o' ho'
  by_cases hx : x = id
  · subst hx
    rw [get?_set_self ho] at ho'
    cases ho'
    exact ⟨o.count, ho⟩
  · rw [get?_set_of_ne hx] at ho'
    exact ⟨o'.count, ho'⟩

/-- Adding a reference makes no object and changes no content. -/
theorem grown_of_retain (ho : h.get? id = some o) : Grown (h.retain id) h := by
  simp only [retain, ho]
  exact grown_of_set_count ho _

theorem grown_of_retainAll (hids : ∀ x ∈ ids, ∃ o, h.get? x = some o) :
    Grown (h.retainAll ids) h := by
  induction ids generalizing h with
  | nil => exact .refl h
  | cons id ids ih =>
      obtain ⟨⟨o, ho⟩, hids⟩ := List.forall_mem_cons.mp hids
      refine (ih fun x hx => ?_).trans (grown_of_retain ho)
      obtain ⟨o', ho'⟩ := hids x hx
      obtain ⟨n, hn⟩ := grown_retain h id x o' ho'
      exact ⟨_, hn⟩

theorem grown_of_destroy (ho : h.get? id = some o) : Grown (h.destroy id o) h := by
  intro x o' ho'
  have hget : (h.destroy id o).get? x = (h.set id none).get? x := rfl
  rw [hget] at ho'
  by_cases hx : x = id
  · subst hx
    rw [get?_set_self ho] at ho'
    cases ho'
  · rw [get?_set_of_ne hx] at ho'
    exact ⟨o'.count, ho'⟩

/-- Giving up references makes no object and changes no content. -/
theorem grown_of_releaseWithin (fuel : Nat) (h : Heap κ) (ids : List ObjId) :
    Grown (releaseWithin fuel h ids) h := by
  induction fuel generalizing h ids with
  | zero => exact .refl h
  | succ fuel ih =>
      cases ids with
      | nil => exact .refl h
      | cons id rest =>
          simp only [releaseWithin]
          split
          · exact ih h rest
          · rename_i o ho
            split
            · exact (ih _ rest).trans (grown_of_set_count ho _)
            · exact (ih _ _).trans (grown_of_destroy ho)

theorem grown_of_release (h : Heap κ) (id : ObjId) : Grown (h.release id) h := by
  unfold release
  split
  · exact .refl h
  · rename_i o ho
    split
    · exact grown_of_set_count ho _
    · exact grown_of_releaseWithin _ h [id]

theorem grown_of_releases (h : Heap κ) (ids : List ObjId) : Grown (ids.foldl release h) h := by
  induction ids generalizing h with
  | nil => exact .refl h
  | cons id ids ih => exact (ih _).trans (grown_of_release h id)

end Heap

end ObjectRuntime
