import ObjectRuntime.TypeTable
import ObjectRuntime.Proofs.Sequencing
set_option autoImplicit false

/-!
# How the type table hands out its slots

A type that is registered takes the slots from its own index on: at an index it claims, in the reserve
of its parent, or at the end of the table.  This module says what one registration does to the table
(`Placement`, `allocate_inv`) and what becomes of the types that were there before.
-/

namespace ObjectRuntime

namespace TypeTable

variable {t t' : TypeTable} {i j first parentIndex slots childSlots : Nat} {p e f : TypeInfo}
  {key : String} {claimed : Option Nat} {overflow : Bool}

/-! ## Entries after a change -/

/-- Only indices of the table are registered. -/
theorem lt_size_of_typeAt? (h : t.typeAt? i = some e) : i < t.entries.size := by
  by_contra hi
  simp [typeAt?, Array.getElem?_eq_none (Nat.le_of_not_lt hi)] at h

theorem typeAt?_put (t : TypeTable) (e : TypeInfo) (j : Nat) :
    (t.put e).typeAt? j =
      if j = e.index ∧ j < t.entries.size then some e else t.typeAt? j := by
  simp only [put, typeAt?, Array.getElem?_setIfInBounds]
  by_cases hj : e.index = j
  · subst hj
    by_cases hlt : e.index < t.entries.size <;> simp [hlt]
  · simp [hj, Ne.symm hj]

theorem typeAt?_put_self (h : e.index < t.entries.size) : (t.put e).typeAt? e.index = some e := by
  rw [typeAt?_put, if_pos ⟨rfl, h⟩]

theorem typeAt?_put_of_ne (h : j ≠ e.index) : (t.put e).typeAt? j = t.typeAt? j := by
  rw [typeAt?_put, if_neg (fun hand => h hand.1)]

theorem typeAt?_reserveIn (t : TypeTable) (p : TypeInfo) (slots j : Nat) :
    (t.reserveIn p slots).typeAt? j =
      if j = p.index ∧ j < t.entries.size then some { p with allocated := p.allocated + slots }
      else t.typeAt? j := by
  simp only [reserveIn, typeAt?, Array.getElem?_setIfInBounds]
  by_cases hj : p.index = j
  · subst hj
    by_cases hlt : p.index < t.entries.size <;> simp [hlt]
  · simp [hj, Ne.symm hj]

/-- A type whose parent's reserve has been used is the type it was, but for the slots it has handed
out. -/
theorem typeAt?_reserveIn_inv (hp : t.typeAt? p.index = some p)
    (h : (t.reserveIn p slots).typeAt? j = some f) :
    ∃ e, t.typeAt? j = some e ∧
      f = { e with allocated := if j = p.index then e.allocated + slots else e.allocated } := by
  rw [typeAt?_reserveIn] at h
  by_cases hj : j = p.index
  · subst hj
    rw [if_pos ⟨rfl, lt_size_of_typeAt? hp⟩] at h
    exact ⟨p, hp, by simpa using h.symm⟩
  · rw [if_neg (fun hand => hj hand.1)] at h
    exact ⟨f, h, by simp [hj]⟩

theorem typeAt?_reserveIn_some (p : TypeInfo) (slots : Nat) (h : t.typeAt? j = some f) :
    ∃ e, (t.reserveIn p slots).typeAt? j = some e := by
  rw [typeAt?_reserveIn]
  split
  · exact ⟨_, rfl⟩
  · exact ⟨f, h⟩

@[simp] theorem typeAt?_extend (t : TypeTable) (slots j : Nat) :
    (t.extend slots).typeAt? j = t.typeAt? j := by
  simp only [extend, typeAt?, Array.getElem?_append, Array.getElem?_replicate]
  by_cases hj : j < t.entries.size
  · simp [hj]
  · simp only [hj, if_false, Array.getElem?_eq_none (Nat.le_of_not_lt hj)]
    split <;> rfl

@[simp] theorem size_put (t : TypeTable) (e : TypeInfo) :
    (t.put e).entries.size = t.entries.size := by simp [put]

@[simp] theorem size_reserveIn (t : TypeTable) (p : TypeInfo) (slots : Nat) :
    (t.reserveIn p slots).entries.size = t.entries.size := by simp [reserveIn]

@[simp] theorem size_extend (t : TypeTable) (slots : Nat) :
    (t.extend slots).entries.size = t.entries.size + slots := by simp [extend]

/-! ## One registration -/

/-- Where a new type of `slots` slots under `p` may go, and the table in which its place has been
made: at the free index it claims, in what is left of the parent's reserve, or at the end. -/
inductive Placement (t : TypeTable) (p : TypeInfo) (slots : Nat) :
    Option Nat → TypeTable → Nat → Prop
  | claimed (index : Nat) (free : t.typeAt? index = none) (within : index < t.entries.size)
      (below : p.index < index) : Placement t p slots (some index) t index
  | reserved (room : p.allocated + slots ≤ p.slots) :
      Placement t p slots none (t.reserveIn p slots) (p.index + p.allocated)
  | appended (full : p.slots < p.allocated + slots) (may : p.slotsCanOverflow = true) :
      Placement t p slots none (t.extend slots) t.entries.size

/-- The table looks for a place in these three ways and no others. -/
theorem place_inv (h : t.place key claimed p slots = .ok (t', i)) :
    Placement t p slots claimed t' i := by
  unfold place at h
  cases claimed with
  | some index =>
      simp only at h
      split at h
      · cases h
      · cases h
      · rename_i hfree
        split at h
        · rename_i hbelow
          cases h
          obtain ⟨hlt, -⟩ := Array.getElem?_eq_some_iff.mp hfree
          exact .claimed _ (by simp [typeAt?, hfree]) hlt hbelow
        · cases h
  | none =>
      obtain ⟨wanted, hwanted, h⟩ := bind_eq_ok.mp h
      have hsum := (checkedOp_add_eq_ok.mp hwanted).2
      split at h
      · cases h
        exact .reserved (by omega)
      · rename_i hfull
        split at h
        · cases h
        · rename_i hmay
          obtain ⟨_, -, h⟩ := bind_eq_ok.mp h
          cases h
          exact .appended (by omega) (by simpa using hmay)

namespace Placement

/-- A type that was registered stays what it is, but for the slots it has handed out. -/
theorem kept (h : Placement t p slots claimed t' i) (hp : t.typeAt? p.index = some p)
    (hf : t.typeAt? j = some f) : ∃ n, t'.typeAt? j = some { f with allocated := n } := by
  cases h with
  | claimed => exact ⟨f.allocated, hf⟩
  | reserved =>
      obtain ⟨g, hg⟩ := typeAt?_reserveIn_some p slots hf
      obtain ⟨f₀, hf₀, rfl⟩ := typeAt?_reserveIn_inv hp hg
      obtain rfl : f = f₀ := by simpa [hf] using hf₀
      exact ⟨_, hg⟩
  | appended => exact ⟨f.allocated, by simpa using hf⟩

/-- Making a place for a type registers none. -/
theorem origin (h : Placement t p slots claimed t' i) (hp : t.typeAt? p.index = some p)
    (hf : t'.typeAt? j = some f) :
    ∃ f₀ n, t.typeAt? j = some f₀ ∧ f = { f₀ with allocated := n } := by
  cases h with
  | claimed => exact ⟨f, f.allocated, hf, rfl⟩
  | reserved =>
      obtain ⟨f₀, hf₀, rfl⟩ := typeAt?_reserveIn_inv hp hf
      exact ⟨f₀, _, hf₀, rfl⟩
  | appended => exact ⟨f, f.allocated, by simpa using hf, rfl⟩

end Placement

/-- A draft is the entry of a new type at a place made for it. -/
theorem draft_inv (h : t.draft key claimed p childSlots overflow = .ok (t', e)) :
    ∃ index, Placement t p (childSlots + 1) claimed t' index ∧
      e = ⟨index, p.index, childSlots + 1, 1, overflow && p.slotsCanOverflow, key⟩ := by
  unfold draft at h
  obtain ⟨slots, hslots, h⟩ := bind_eq_ok.mp h
  obtain ⟨⟨t₁, index⟩, hplace, h⟩ := bind_eq_ok.mp h
  have hsum : slots.toNat = childSlots + 1 := by
    have := (checkedOp_add_eq_ok.mp hslots).2
    omega
  rw [hsum] at hplace h
  obtain ⟨rfl, rfl⟩ := Prod.mk.inj (Except.ok.inj h)
  exact ⟨index, place_inv hplace, rfl⟩

/-- What a registration of a new key does under its parent: it fails and leaves the table, or it
makes a place for the new type and puts it there. -/
theorem allocateUnder_inv {answer : Except Fault Nat}
    (h : t.allocateUnder key claimed p childSlots overflow = (answer, t')) :
    (t' = t ∧ ∃ fault, answer = .error fault) ∨
    ∃ t₁ index, Placement t p (childSlots + 1) claimed t₁ index ∧
      t₁.settle ⟨index, p.index, childSlots + 1, 1, overflow && p.slotsCanOverflow, key⟩ =
        (answer, t') := by
  unfold allocateUnder at h
  split at h
  · rename_i t₁ info hdraft
    obtain ⟨index, hplace, rfl⟩ := draft_inv hdraft
    exact .inr ⟨t₁, index, hplace, h⟩
  · obtain ⟨rfl, rfl⟩ := Prod.mk.inj h
    exact .inl ⟨rfl, _, rfl⟩

/-- What a registration does: it finds the key, or it fails and leaves the table, or it makes a
place for the new type and puts it there. -/
theorem allocate_inv {answer : Except Fault Nat}
    (h : t.allocate key claimed parentIndex childSlots overflow = (answer, t')) :
    (∃ index, t.index? key = some index ∧ answer = .ok index ∧ t' = t) ∨
    (t.index? key = none ∧ t' = t ∧ ∃ fault, answer = .error fault) ∨
    (t.index? key = none ∧ ∃ p t₁ index,
      t.typeAt? parentIndex = some p ∧ p.index = parentIndex ∧
      Placement t p (childSlots + 1) claimed t₁ index ∧
      t₁.settle ⟨index, p.index, childSlots + 1, 1, overflow && p.slotsCanOverflow, key⟩ =
        (answer, t')) := by
  unfold allocate at h
  split at h
  · rename_i index hkey
    obtain ⟨rfl, rfl⟩ := Prod.mk.inj h
    exact .inl ⟨index, hkey, rfl, rfl⟩
  · rename_i hkey
    refine .inr ?_
    split at h
    · obtain ⟨rfl, rfl⟩ := Prod.mk.inj h
      exact .inl ⟨hkey, rfl, _, rfl⟩
    · rename_i p hparent
      obtain ⟨hp, hindex⟩ := Option.filter_eq_some_iff.mp hparent
      rcases allocateUnder_inv h with ⟨rfl, hfault⟩ | ⟨t₁, index, hplace, hsettle⟩
      · exact .inl ⟨hkey, rfl, hfault⟩
      · exact .inr ⟨hkey, p, t₁, index, hp, by simpa using hindex, hplace, hsettle⟩

/-- A registration that has found a place for its type puts it there, or hits the end of the
table. -/
theorem settle_inv {answer : Except Fault Nat} (h : t.settle e = (answer, t')) :
    (e.index < t.entries.size ∧ answer = .ok e.index ∧ t' = t.put e) ∨
    (t.entries.size ≤ e.index ∧ t' = t) := by
  unfold settle at h
  split at h
  · rename_i hlt
    obtain ⟨rfl, rfl⟩ := Prod.mk.inj h
    exact .inl ⟨hlt, rfl, rfl⟩
  · rename_i hlt
    obtain ⟨-, rfl⟩ := Prod.mk.inj h
    exact .inr ⟨Nat.le_of_not_lt hlt, rfl⟩

end TypeTable

end ObjectRuntime
