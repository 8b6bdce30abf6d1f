import ObjectRuntime.Proofs.Lists
import ObjectRuntime.Proofs.TypeTable.Slots
import Mathlib.Data.List.Induction
set_option autoImplicit false

/-!
# When registrations leave each other alone

A new type must not touch the types that are there.  The table checks that an index which is claimed
is free, and what it appends is free, but it hands out the reserve of a parent unseen: below the
first dynamic index the reserve of a type that claimed its index covers the indices that others may
claim, and it may reach behind the end of the table.

`Undisturbed` says that no registration of a run disturbs another type, `Overruns` is the one thing
that can go wrong, and `undisturbed_iff` says that nothing else does.  Types that claim their index
without slots for children never cause it.
-/

namespace ObjectRuntime

namespace TypeTable

/-- What is asked for when a type is registered. -/
structure Registration where
  key : String
  claimed : Option Nat
  parent : Nat
  childSlots : Nat
  slotsCanOverflow : Bool

variable {t : TypeTable} {r : Registration} {rs : List Registration} {p e : TypeInfo} {i : Nat}

namespace Registration

/-- The registration of a type in a table. -/
def run (r : Registration) (t : TypeTable) : Outcome Nat :=
  t.allocate r.key r.claimed r.parent r.childSlots r.slotsCanOverflow

/-- The entry of the new type at an index under its parent. -/
def entry (r : Registration) (p : TypeInfo) (index : Nat) : TypeInfo :=
  ⟨index, p.index, r.childSlots + 1, 1, r.slotsCanOverflow && p.slotsCanOverflow, r.key⟩

/-- Whoever claims an index claims one of those that are kept for this. -/
def Claimable (r : Registration) : Prop := ∀ index, r.claimed = some index → index < firstDynamic

/-- Whoever claims an index reserves no slots for children. -/
def Childless (r : Registration) : Prop := r.claimed ≠ none → r.childSlots = 0

end Registration

/-- The table after some registrations, of which any may have failed. -/
def after (rs : List Registration) : TypeTable := rs.foldl (fun t r => (r.run t).2) initial

theorem after_append (rs : List Registration) (r : Registration) :
    after (rs ++ [r]) = (r.run (after rs)).2 := by
  simp [after]

/-- The registration leaves all other types alone: a new type changes nothing but the slots that its
parent has handed out, and if it cannot be registered nothing changes at all. -/
structure Registration.LeavesAlone (r : Registration) (t : TypeTable) : Prop where
  kept : ∀ index, (r.run t).1 = .ok index → ∀ i e, t.typeAt? i = some e →
    (r.run t).2.typeAt? i = some e ∨
      (i = r.parent ∧ ∃ n, (r.run t).2.typeAt? i = some { e with allocated := n })
  failed : ∀ fault, (r.run t).1 = .error fault → (r.run t).2 = t

/-- Every key has an index of its own, and the index leads back to the key. -/
structure OwnIndices (t : TypeTable) : Prop where
  distinct : ∀ key key' i, t.index? key = some i → t.index? key' = some i → key = key'
  leadsBack : ∀ key i, t.index? key = some i → t.keyOf i = .ok key

/-- No registration of a run disturbs another type. -/
structure Undisturbed (rs : List Registration) : Prop where
  indices : ∀ before, before <+: rs → OwnIndices (after before)
  steps : ∀ before r, before ++ [r] <+: rs → r.LeavesAlone (after before)

/-- The next slot in the reserve of the parent is taken or lies behind the end of the table. -/
structure Registration.Overruns (r : Registration) (t : TypeTable) (p : TypeInfo) : Prop where
  unclaimed : r.claimed = none
  fresh : t.index? r.key = none
  parent : t.typeAt? r.parent = some p
  room : p.allocated + (r.childSlots + 1) ≤ p.slots
  unfree : (∃ e, t.typeAt? (r.parent + p.allocated) = some e) ∨
    t.entries.size ≤ r.parent + p.allocated

/-! ## Tables without disturbance -/

/-- Entries stand at their index, have handed out a slot to themselves, and have the keys that lead
to them. -/
structure Sound (t : TypeTable) : Prop where
  indexed : ∀ i e, t.typeAt? i = some e → e.index = i
  used : ∀ i e, t.typeAt? i = some e → 1 ≤ e.allocated
  small : ∀ i e, t.typeAt? i = some e → IntKind.u32.Fits e.slots
  keyed : ∀ key i, t.index? key = some i ↔ ∃ e, t.typeAt? i = some e ∧ e.key = key

theorem typeAt?_initial_inv (h : initial.typeAt? i = some e) :
    i = rootIndex ∧ e = ⟨rootIndex, rootIndex, 0, 1, true, ObjectClass.rootKey⟩ := by
  have hlt : i < firstDynamic := by simpa [initial] using lt_size_of_typeAt? h
  by_cases hi : i = rootIndex
  · subst hi
    exact ⟨rfl, (Option.some.inj h).symm⟩
  · simp [initial, typeAt?, Ne.symm hi, hlt] at h

namespace Sound

theorem initial : Sound TypeTable.initial := by
  refine ⟨fun i e h => ?_, fun i e h => ?_, fun i e h => ?_, fun key i => ⟨fun h => ?_, ?_⟩⟩
  · obtain ⟨rfl, rfl⟩ := typeAt?_initial_inv h
    rfl
  · obtain ⟨rfl, rfl⟩ := typeAt?_initial_inv h
    exact Nat.le_refl 1
  · obtain ⟨rfl, rfl⟩ := typeAt?_initial_inv h
    decide
  · have hmem := mem_of_lookup (show [(ObjectClass.rootKey, rootIndex)].lookup key = some i from h)
    obtain ⟨rfl, rfl⟩ := Prod.mk.inj (List.mem_singleton.mp hmem)
    exact ⟨_, rfl, rfl⟩
  · rintro ⟨e, he, rfl⟩
    obtain ⟨rfl, rfl⟩ := typeAt?_initial_inv he
    rfl

theorem ownIndices (h : Sound t) : OwnIndices t := by
  refine ⟨fun key key' i hkey hkey' => ?_, fun key i hkey => ?_⟩
  · obtain ⟨e, he, rfl⟩ := (h.keyed key i).mp hkey
    obtain ⟨e', he', rfl⟩ := (h.keyed key' i).mp hkey'
    rw [Option.some.inj (he.symm.trans he')]
  · obtain ⟨e, he, rfl⟩ := (h.keyed key i).mp hkey
    rw [keyOf, info, he]
    rfl

/-- A new type at a place that is free and in the table. -/
theorem registered {t' : TypeTable} {claimed : Option Nat} (h : Sound t)
    (hkey : t.index? r.key = none) (hp : t.typeAt? p.index = some p)
    (hplace : Placement t p (r.childSlots + 1) claimed t' i)
    (hfree : t.typeAt? i = none) (hlt : i < t'.entries.size)
    (hfits : IntKind.u32.Fits ((r.childSlots + 1 : Nat) : Int)) : Sound (t'.put (r.entry p i)) := by
  -- apart from the new entry there are only the old ones, but for the slots handed out
  have hentry : ∀ j f, (t'.put (r.entry p i)).typeAt? j = some f →
      (j = i ∧ f = r.entry p i) ∨
        ∃ f₀ n, t.typeAt? j = some f₀ ∧ f = { f₀ with allocated := n } ∧ f₀.allocated ≤ n := by
    intro j f hf
    rw [typeAt?_put] at hf
    split at hf
    · rename_i hj
      exact .inl ⟨hj.1, (Option.some.inj hf).symm⟩
    · right
      cases hplace with
      | claimed => exact ⟨f, f.allocated, hf, rfl, Nat.le_refl _⟩
      | reserved =>
          obtain ⟨f₀, hf₀, rfl⟩ := typeAt?_reserveIn_inv hp hf
          refine ⟨f₀, _, hf₀, rfl, ?_⟩
          split <;> omega
      | appended => exact ⟨f, f.allocated, by simpa using hf, rfl, Nat.le_refl _⟩
  have hold : ∀ j f, t.typeAt? j = some f →
      ∃ n, (t'.put (r.entry p i)).typeAt? j = some { f with allocated := n } := by
    intro j f hf
    have hj : j ≠ (r.entry p i).index := fun heq => by
      rw [show j = i from heq, hfree] at hf
      cases hf
    obtain ⟨n, hn⟩ := hplace.kept hp hf
    exact ⟨n, (typeAt?_put_of_ne hj).trans hn⟩
  have hkeys : ∀ key, (t'.put (r.entry p i)).index? key =
      if key = r.key then some i else t.index? key := by
    intro key
    have hsame : t'.keys = t.keys := by cases hplace <;> rfl
    simp only [index?, put, lookup_cons_eq, hsame]
    rfl
  refine ⟨fun j f hf => ?_, fun j f hf => ?_, fun j f hf => ?_, fun key j => ⟨fun hj => ?_, ?_⟩⟩
  · rcases hentry j f hf with ⟨rfl, rfl⟩ | ⟨f₀, n, hf₀, rfl, -⟩
    · rfl
    · exact (h.indexed j f₀ hf₀ :)
  · rcases hentry j f hf with ⟨rfl, rfl⟩ | ⟨f₀, n, hf₀, rfl, hn⟩
    · exact Nat.le_refl 1
    · exact Nat.le_trans (h.used j f₀ hf₀) hn
  · rcases hentry j f hf with ⟨rfl, rfl⟩ | ⟨f₀, n, hf₀, rfl, -⟩
    · exact hfits
    · exact (h.small j f₀ hf₀ :)
  · rw [hkeys] at hj
    split at hj
    · rename_i heq
      cases hj
      exact ⟨r.entry p i, typeAt?_put_self hlt, heq.symm⟩
    · obtain ⟨f, hf, hfk⟩ := (h.keyed key j).mp hj
      obtain ⟨n, hn⟩ := hold j f hf
      exact ⟨_, hn, hfk⟩
  · rintro ⟨f, hf, rfl⟩
    rw [hkeys]
    rcases hentry j f hf with ⟨rfl, rfl⟩ | ⟨f₀, n, hf₀, rfl, -⟩
    · exact if_pos rfl
    · have hf₀k := (h.keyed f₀.key j).mpr ⟨f₀, hf₀, rfl⟩
      rw [if_neg fun heq : f₀.key = r.key => by simp [← heq, hf₀k] at hkey]
      exact hf₀k

end Sound

/-! ## One registration -/

/-- A new type that finds room in the reserve of its parent is put there unseen. -/
theorem allocate_of_room {key : String} {childSlots : Nat} {overflow : Bool}
    (hkey : t.index? key = none) (hp : t.typeAt? p.index = some p)
    (hroom : p.allocated + (childSlots + 1) ≤ p.slots) (hsmall : IntKind.u32.Fits p.slots) :
    t.allocate key none p.index childSlots overflow =
      (t.reserveIn p (childSlots + 1)).settle ⟨p.index + p.allocated, p.index, childSlots + 1, 1,
        overflow && p.slotsCanOverflow, key⟩ := by
  have hmin : IntKind.u32.min = 0 := rfl
  have hslots : checkedOp .u32 .add childSlots 1 = .ok ((childSlots + 1 : Nat) : Int) := by
    rw [checkedOp_add_eq_ok]
    simp only [IntKind.Fits] at hsmall ⊢
    omega
  have hwanted : checkedOp .u32 .add p.allocated ((childSlots + 1 : Nat) : Int) =
      .ok ((p.allocated + (childSlots + 1) : Nat) : Int) := by
    rw [checkedOp_add_eq_ok]
    simp only [IntKind.Fits] at hsmall ⊢
    omega
  have hplace : t.place key none p (childSlots + 1) =
      .ok (t.reserveIn p (childSlots + 1), p.index + p.allocated) := by
    rw [place]
    simp only [hwanted]
    exact if_pos (by omega)
  have hdraft : t.draft key none p childSlots overflow = .ok (t.reserveIn p (childSlots + 1),
      ⟨p.index + p.allocated, p.index, childSlots + 1, 1, overflow && p.slotsCanOverflow, key⟩) := by
    simp only [draft, hslots, bind, Except.bind, Int.toNat_natCast, hplace]
  simp only [allocate, hkey, hp, Option.filter, decide_true, if_true, allocateUnder, hdraft]

/-- The slots of a new type fit into a word. -/
theorem fits_of_draft {key : String} {claimed : Option Nat} {childSlots : Nat} {overflow : Bool}
    {t' : TypeTable} (h : t.draft key claimed p childSlots overflow = .ok (t', e)) :
    IntKind.u32.Fits ((childSlots + 1 : Nat) : Int) := by
  obtain ⟨slots, hslots, -⟩ := bind_eq_ok.mp h
  exact (checkedOp_add_eq_ok.mp hslots).1

/-- What a registration does in a table without disturbance: it finds the key, or it fails and
leaves the table, or it puts the new type at its place. -/
theorem Registration.run_inv (r : Registration) (h : Sound t) :
    (∃ index, r.run t = (.ok index, t)) ∨ (∃ fault, r.run t = (.error fault, t)) ∨
    ∃ p t₁ index, t.index? r.key = none ∧ p.index = r.parent ∧ t.typeAt? r.parent = some p ∧
      Placement t p (r.childSlots + 1) r.claimed t₁ index ∧
      IntKind.u32.Fits ((r.childSlots + 1 : Nat) : Int) ∧ r.run t = t₁.settle (r.entry p index) := by
  cases hkey : t.index? r.key with
  | some index => exact .inl ⟨index, by simp only [run, allocate, hkey]⟩
  | none =>
      right
      rcases hparent : t.typeAt? r.parent with _ | p
      · exact .inl ⟨_, by simp only [run, allocate, hkey, hparent]; rfl⟩
      ·
          have hindex := h.indexed _ _ hparent
          have hrun : r.run t =
              t.allocateUnder r.key r.claimed p r.childSlots r.slotsCanOverflow := by
            simp [run, allocate, hkey, hparent, Option.filter, hindex]
          cases hdraft : t.draft r.key r.claimed p r.childSlots r.slotsCanOverflow with
          | error fault => exact .inl ⟨fault, by simp only [hrun, allocateUnder, hdraft]⟩
          | ok drafted =>
              obtain ⟨t₁, info⟩ := drafted
              obtain ⟨index, hplace, rfl⟩ := draft_inv hdraft
              refine .inr ⟨p, t₁, index, rfl, hindex, rfl, hplace, fits_of_draft hdraft, ?_⟩
              simp only [hrun, allocateUnder, hdraft, Registration.entry]

/-- The place of a new type is free and in the table: the table looks at an index that is claimed, and
there is no overrun. -/
theorem Sound.free_of_placement {claimed : Option Nat} {t' : TypeTable} (h : Sound t)
    (hclear : ¬ r.Overruns t p) (hkey : t.index? r.key = none) (hparent : t.typeAt? r.parent = some p)
    (hclaimed : r.claimed = claimed) (hplace : Placement t p (r.childSlots + 1) claimed t' i) :
    t.typeAt? i = none ∧ i < t'.entries.size := by
  have hindex := h.indexed _ _ hparent
  cases hplace with
  | claimed _ free within => exact ⟨free, within⟩
  | reserved room =>
      have hunfree := not_or.mp fun hunfree =>
        hclear ⟨hclaimed, hkey, hparent, room, hindex ▸ hunfree⟩
      exact ⟨Option.eq_none_iff_forall_ne_some.mpr fun e he => hunfree.1 ⟨e, he⟩,
        by simpa using hunfree.2⟩
  | appended => exact ⟨by simp [typeAt?], by simp⟩

/-- Making a place for a type changes nothing but the slots that its parent has handed out. -/
theorem Placement.kept_or_parent {claimed : Option Nat} {t' : TypeTable} {slots j : Nat}
    (hplace : Placement t p slots claimed t' i) (hp : t.typeAt? p.index = some p)
    (he : t.typeAt? j = some e) :
    t'.typeAt? j = some e ∨ (j = p.index ∧ ∃ n, t'.typeAt? j = some { e with allocated := n }) := by
  cases hplace with
  | claimed => exact .inl he
  | reserved =>
      rw [typeAt?_reserveIn]
      split
      · rename_i heq
        obtain rfl := heq.1
        obtain rfl := Option.some.inj (hp.symm.trans he)
        exact .inr ⟨rfl, _, rfl⟩
      · exact .inl he
  | appended => exact .inl (by simpa using he)

/-- A registration that does not overrun leaves all other types alone, and the table stays
without disturbance. -/
theorem Sound.step (h : Sound t) (hclear : ∀ p, ¬ r.Overruns t p) :
    Sound (r.run t).2 ∧ r.LeavesAlone t := by
  rcases r.run_inv h with ⟨index, hrun⟩ | ⟨fault, hrun⟩ |
      ⟨p, t₁, index, hkey, hindex, hparent, hplace, hfits, hrun⟩
  · rw [hrun]
    refine ⟨h, fun j hj i e he => ?_, fun fault hfault => ?_⟩
    · exact .inl (by rw [hrun]; exact he)
    · rw [hrun] at hfault
      cases hfault
  · rw [hrun]
    refine ⟨h, fun j hj => ?_, fun _ _ => by rw [hrun]⟩
    rw [hrun] at hj
    cases hj
  · have hp : t.typeAt? p.index = some p := hindex ▸ hparent
    obtain ⟨hfree, hlt⟩ := h.free_of_placement (hclear p) hkey hparent rfl hplace
    have hsettle : r.run t = (.ok index, t₁.put (r.entry p index)) :=
      hrun.trans (if_pos hlt)
    rw [hsettle]
    refine ⟨h.registered hkey hp hplace hfree hlt hfits, fun j hj i e he => ?_, fun _ hfault => ?_⟩
    · have hne : i ≠ (r.entry p index).index := fun heq => by
        rw [show i = index from heq, hfree] at he
        cases he
      rw [hsettle]
      simp only [typeAt?_put_of_ne hne]
      exact hindex ▸ hplace.kept_or_parent hp he
    · rw [hsettle] at hfault
      cases hfault

/-- A registration that overruns disturbs another type or leaves a trace of its failure. -/
theorem Registration.Overruns.disturbs (h : r.Overruns t p) (hsound : Sound t) :
    ¬ r.LeavesAlone t := by
  intro halone
  have hindex := hsound.indexed _ _ h.parent
  have hp : t.typeAt? p.index = some p := hindex ▸ h.parent
  have hused := hsound.used _ _ hp
  have hrun : r.run t = (t.reserveIn p (r.childSlots + 1)).settle (r.entry p (p.index + p.allocated)) := by
    rw [run, h.unclaimed, ← hindex, allocate_of_room h.fresh hp h.room (hsound.small _ _ hp)]
    rfl
  by_cases hlt : p.index + p.allocated < t.entries.size
  · -- the slot is taken by a type of another key, which loses its entry
    obtain ⟨e, he⟩ := h.unfree.resolve_right (by omega)
    rw [← hindex] at he
    have hsettle : r.run t = (.ok (p.index + p.allocated),
        (t.reserveIn p (r.childSlots + 1)).put (r.entry p (p.index + p.allocated))) := by
      rw [hrun, settle, if_pos (by simpa [Registration.entry] using hlt)]
      rfl
    have hself : (r.run t).2.typeAt? (p.index + p.allocated) =
        some (r.entry p (p.index + p.allocated)) := by
      rw [hsettle]
      exact typeAt?_put_self (by simpa [Registration.entry] using hlt)
    have hkey : e.key = r.key := by
      rcases halone.kept _ (by rw [hsettle]) _ e he with hkept | ⟨-, n, hkept⟩
      · exact congrArg TypeInfo.key (Option.some.inj (hkept.symm.trans hself))
      · exact (congrArg TypeInfo.key (Option.some.inj (hkept.symm.trans hself)) :)
    have hfound := (hsound.keyed e.key _).mpr ⟨e, he, rfl⟩
    rw [hkey, h.fresh] at hfound
    cases hfound
  · -- the registration fails, but the slots of the parent stay handed out
    have hsettle : r.run t = (.error (.panic (.slotBeyondTable t.entries.size
        (p.index + p.allocated))), t.reserveIn p (r.childSlots + 1)) := by
      rw [hrun, settle, if_neg (by simpa [Registration.entry] using hlt)]
      simp [Registration.entry]
    have hsame : t.reserveIn p (r.childSlots + 1) = t := by
      have hkept := halone.failed _ (by rw [hsettle])
      rwa [hsettle] at hkept
    have hentry : (t.reserveIn p (r.childSlots + 1)).typeAt? p.index = some p := by rwa [hsame]
    rw [typeAt?_reserveIn, if_pos ⟨rfl, lt_size_of_typeAt? hp⟩] at hentry
    have := congrArg TypeInfo.allocated (Option.some.inj hentry)
    simp only at this
    omega

/-! ## Reserves that lie apart -/

/-- Types at indices that may be claimed have no slots for children, and what lies in the reserve of
another type has been handed out by it. -/
structure Spread (t : TypeTable) : Prop where
  claimable : firstDynamic ≤ t.entries.size
  childless : ∀ i e, t.typeAt? i = some e → i < firstDynamic → e.slots ≤ 1
  within : ∀ i e, t.typeAt? i = some e → firstDynamic ≤ i → i + e.slots ≤ t.entries.size
  filled : ∀ i e, t.typeAt? i = some e → firstDynamic ≤ i → 1 ≤ e.slots
  nested : ∀ i e j f, t.typeAt? i = some e → t.typeAt? j = some f → i < j → j < i + e.slots →
    j + f.slots ≤ i + e.allocated

theorem Spread.initial : Spread TypeTable.initial := by
  refine ⟨Nat.le_refl _, fun i e he _ => ?_, fun i e he hi => ?_, fun i e he hi => ?_,
    fun i e j f he hf hij => ?_⟩
  all_goals obtain ⟨rfl, rfl⟩ := typeAt?_initial_inv he
  · exact Nat.zero_le 1
  · exact absurd hi (by decide)
  · exact absurd hi (by decide)
  · obtain ⟨rfl, rfl⟩ := typeAt?_initial_inv hf
    exact absurd hij (Nat.lt_irrefl _)

/-- Where reserves lie apart no registration overruns. -/
theorem Spread.not_overruns (h : Spread t) (hsound : Sound t) : ¬ r.Overruns t p := by
  intro hover
  have hroom := hover.room
  have hused := hsound.used _ _ hover.parent
  have hdynamic : firstDynamic ≤ r.parent := by
    by_contra hlt
    have := h.childless _ _ hover.parent (Nat.lt_of_not_le hlt)
    omega
  have hend := h.within _ _ hover.parent hdynamic
  rcases hover.unfree with ⟨e, he⟩ | hbeyond
  · have hfilled := h.filled _ _ he (by omega)
    have := h.nested _ _ _ _ hover.parent he (by omega) (by omega)
    omega
  · omega

/-- Handing out more of a reserve keeps the reserves apart. -/
theorem Spread.reserveIn (h : Spread t) (hp : t.typeAt? p.index = some p) (slots : Nat) :
    Spread (t.reserveIn p slots) := by
  refine ⟨?_, fun i e he hi => ?_, fun i e he hi => ?_, fun i e he hi => ?_,
    fun i e j f he hf hij hji => ?_⟩
  · rw [size_reserveIn]
    exact h.claimable
  · obtain ⟨e₀, he₀, rfl⟩ := typeAt?_reserveIn_inv hp he
    exact h.childless i e₀ he₀ hi
  · obtain ⟨e₀, he₀, rfl⟩ := typeAt?_reserveIn_inv hp he
    rw [size_reserveIn]
    exact h.within i e₀ he₀ hi
  · obtain ⟨e₀, he₀, rfl⟩ := typeAt?_reserveIn_inv hp he
    exact h.filled i e₀ he₀ hi
  · obtain ⟨e₀, he₀, rfl⟩ := typeAt?_reserveIn_inv hp he
    obtain ⟨f₀, hf₀, rfl⟩ := typeAt?_reserveIn_inv hp hf
    refine Nat.le_trans (h.nested i e₀ j f₀ he₀ hf₀ hij hji) ?_
    dsimp only
    split <;> omega

/-- So does a longer table. -/
theorem Spread.extend (h : Spread t) (slots : Nat) : Spread (t.extend slots) := by
  have hsize : t.entries.size ≤ (t.extend slots).entries.size := by simp
  refine ⟨Nat.le_trans h.claimable hsize, ?_, fun i e he hi => ?_, ?_, ?_⟩
  all_goals simp only [typeAt?_extend] at *
  · exact h.childless
  · exact Nat.le_trans (h.within i e he hi) hsize
  · exact h.filled
  · exact h.nested

/-- And so does a new entry that lies in the reserves of others where they have handed it out, and
has others in its own where it has. -/
theorem Spread.put {e : TypeInfo} (h : Spread t) (hlow : e.index < firstDynamic → e.slots ≤ 1)
    (hwithin : firstDynamic ≤ e.index → e.index + e.slots ≤ t.entries.size)
    (hfilled : 1 ≤ e.slots)
    (hinside : ∀ j f, t.typeAt? j = some f → e.index < j → j < e.index + e.slots →
      j + f.slots ≤ e.index + e.allocated)
    (haround : ∀ j f, t.typeAt? j = some f → j < e.index → e.index < j + f.slots →
      e.index + e.slots ≤ j + f.allocated) : Spread (t.put e) := by
  have hentry : ∀ {j f}, (t.put e).typeAt? j = some f →
      (j = e.index ∧ f = e) ∨ t.typeAt? j = some f := by
    intro j f hf
    rw [typeAt?_put] at hf
    split at hf
    · rename_i hj
      exact .inl ⟨hj.1, (Option.some.inj hf).symm⟩
    · exact .inr hf
  refine ⟨?_, fun i f hf hi => ?_, fun i f hf hi => ?_, fun i f hf hi => ?_,
    fun i f j g hf hg hij hji => ?_⟩
  · rw [size_put]
    exact h.claimable
  · rcases hentry hf with ⟨rfl, rfl⟩ | hf
    · exact hlow hi
    · exact h.childless i f hf hi
  · rw [size_put]
    rcases hentry hf with ⟨rfl, rfl⟩ | hf
    · exact hwithin hi
    · exact h.within i f hf hi
  · rcases hentry hf with ⟨rfl, rfl⟩ | hf
    · exact hfilled
    · exact h.filled i f hf hi
  · rcases hentry hf with ⟨rfl, rfl⟩ | hf₀
    · rcases hentry hg with ⟨rfl, rfl⟩ | hg₀
      · exact absurd hij (Nat.lt_irrefl _)
      · exact hinside j g hg₀ hij hji
    · rcases hentry hg with ⟨rfl, rfl⟩ | hg₀
      · exact haround i f hf₀ hij hji
      · exact h.nested i f j g hf₀ hg₀ hij hji

/-- A new type in a place that is free keeps the reserves apart, if types that claim their index
have no slots for children. -/
theorem Spread.registered {t' : TypeTable} {claimed : Option Nat} (h : Spread t)
    (hsound : Sound t) (hp : t.typeAt? p.index = some p) (hclaim : r.Claimable)
    (hchildless : r.Childless) (hclaimed : r.claimed = claimed)
    (hplace : Placement t p (r.childSlots + 1) claimed t' i) : Spread (t'.put (r.entry p i)) := by
  have hslots : (r.entry p i).slots = r.childSlots + 1 := rfl
  have hone : (r.entry p i).allocated = 1 := rfl
  have hindex : (r.entry p i).index = i := rfl
  have hfilled : 1 ≤ (r.entry p i).slots := Nat.le_add_left 1 _
  cases hplace with
  | claimed _ free within below =>
      have hlt := hclaim i hclaimed
      have hnone : r.childSlots = 0 := hchildless (by simp [hclaimed])
      refine h.put (fun _ => by omega) (fun hi => by omega) hfilled (fun j f _ hij hji => by omega)
        fun j f hf hji hij => ?_
      have := h.childless j f hf (by omega)
      omega
  | reserved room =>
      have hused := hsound.used _ _ hp
      have hdynamic : firstDynamic ≤ p.index := by
        by_contra hlt
        have := h.childless _ _ hp (Nat.lt_of_not_le hlt)
        omega
      have hend := h.within _ _ hp hdynamic
      refine (h.reserveIn hp _).put (fun hi => by omega) (fun _ => ?_) hfilled
        (fun j f hf hij hji => ?_) fun j f hf hji hij => ?_
      · rw [size_reserveIn]
        omega
      · -- what lies in the new reserve would lie in the parent's, behind what it has handed out
        obtain ⟨f₀, hf₀, rfl⟩ := typeAt?_reserveIn_inv hp hf
        have := h.filled j f₀ hf₀ (by omega)
        have := h.nested _ _ _ _ hp hf₀ (by omega) (by omega)
        omega
      · -- whoever has the new type in its reserve has the parent in it, or is the parent, or
        -- lies in the parent's reserve before the new type
        obtain ⟨f₀, hf₀, rfl⟩ := typeAt?_reserveIn_inv hp hf
        dsimp only at hij ⊢
        rcases Nat.lt_trichotomy j p.index with hjp | rfl | hjp
        · have := h.nested _ _ _ _ hf₀ hp hjp (by omega)
          rw [if_neg (Nat.ne_of_lt hjp)]
          omega
        · obtain rfl := Option.some.inj (hp.symm.trans hf₀)
          rw [if_pos rfl]
          omega
        · have := h.nested _ _ _ _ hp hf₀ hjp (by omega)
          omega
  | appended full may =>
      have hsize := h.claimable
      refine (h.extend _).put (fun hi => by omega) (fun _ => ?_) hfilled
        (fun j f hf hij hji => ?_) fun j f hf hji hij => ?_
      · simp [hindex, hslots]
      · rw [typeAt?_extend] at hf
        have := lt_size_of_typeAt? hf
        omega
      · rw [typeAt?_extend] at hf
        by_cases hj : firstDynamic ≤ j
        · have := h.within j f hf hj
          omega
        · have := h.childless j f hf (by omega)
          omega

/-- A registration keeps the reserves apart if whoever claims an index has no slots for children. -/
theorem Spread.step (h : Spread t) (hsound : Sound t) (hclaim : r.Claimable)
    (hchildless : r.Childless) : Spread (r.run t).2 := by
  rcases r.run_inv hsound with ⟨index, hrun⟩ | ⟨fault, hrun⟩ |
      ⟨p, t₁, index, hkey, hindex, hparent, hplace, -, hrun⟩
  · rw [hrun]
    exact h
  · rw [hrun]
    exact h
  · have hlt := (hsound.free_of_placement (h.not_overruns hsound) hkey hparent rfl hplace).2
    have hsettle : r.run t = (.ok index, t₁.put (r.entry p index)) := hrun.trans (if_pos hlt)
    rw [hsettle]
    exact h.registered hsound (hindex ▸ hparent) hclaim hchildless rfl hplace

/-! ## Whole runs -/

/-- As long as nothing overruns the table stays without disturbance. -/
theorem sound_after (hclear : ∀ before r, before ++ [r] <+: rs → ∀ p, ¬ r.Overruns (after before) p)
    (before : List Registration) (hbefore : before <+: rs) : Sound (after before) := by
  induction before using List.reverseRecOn with
  | nil => exact .initial
  | append_singleton before r ih =>
      rw [after_append]
      exact ((ih ((List.prefix_append _ _).trans hbefore)).step (hclear before r hbefore)).1

/-- In a run that disturbs no type the table stays without disturbance. -/
theorem Undisturbed.sound_after (h : Undisturbed rs) (before : List Registration)
    (hbefore : before <+: rs) : Sound (after before) := by
  induction before using List.reverseRecOn with
  | nil => exact .initial
  | append_singleton before r ih =>
      have hsound := ih ((List.prefix_append _ _).trans hbefore)
      rw [after_append]
      exact (hsound.step fun p hover => hover.disturbs hsound (h.steps before r hbefore)).1

/-- If whoever claims an index has no slots for children, nothing overruns. -/
theorem not_overruns_of_childless (hclaims : ∀ r ∈ rs, r.Claimable)
    (hchildless : ∀ r ∈ rs, r.Childless) (before : List Registration) (hbefore : before <+: rs) :
    Spread (after before) ∧ Sound (after before) := by
  induction before using List.reverseRecOn with
  | nil => exact ⟨.initial, .initial⟩
  | append_singleton before r ih =>
      obtain ⟨hspread, hsound⟩ := ih ((List.prefix_append _ _).trans hbefore)
      have hmem : r ∈ rs := hbefore.subset (List.mem_append_right _ List.mem_cons_self)
      rw [after_append]
      exact ⟨hspread.step hsound (hclaims r hmem) (hchildless r hmem),
        (hsound.step fun p => hspread.not_overruns hsound).1⟩

/-- No registration of a run disturbs another type exactly if none of them finds the next slot of its
parent taken or behind the end of the table; and none does if whoever claims an index reserves no
slots for children. -/
theorem undisturbed_iff (rs : List Registration) :
    (Undisturbed rs ↔ ∀ before r, before ++ [r] <+: rs → ∀ p, ¬ r.Overruns (after before) p) ∧
      ((∀ r ∈ rs, r.Claimable) → (∀ r ∈ rs, r.Childless) → Undisturbed rs) := by
  have hundisturbed : (∀ before r, before ++ [r] <+: rs → ∀ p, ¬ r.Overruns (after before) p) →
      Undisturbed rs := by
    intro hclear
    refine ⟨fun before hbefore => (sound_after hclear before hbefore).ownIndices,
      fun before r hbefore => ?_⟩
    have hsound := sound_after hclear before ((List.prefix_append _ _).trans hbefore)
    exact (hsound.step (hclear before r hbefore)).2
  refine ⟨⟨fun h before r hbefore p hover => ?_, hundisturbed⟩, fun hclaims hchildless => ?_⟩
  · have hsound := h.sound_after before ((List.prefix_append _ _).trans hbefore)
    exact hover.disturbs hsound (h.steps before r hbefore)
  · refine hundisturbed fun before r hbefore p => ?_
    obtain ⟨hspread, hsound⟩ := not_overruns_of_childless hclaims hchildless before
      ((List.prefix_append _ _).trans hbefore)
    exact hspread.not_overruns hsound

/-- Two types that claim their indices, a type with slots for children, and two of its children, for
the second of which no slot is left. -/
theorem undisturbed_of_childless_claims :
    Undisturbed [⟨"test.Text", some 3, 0, 0, true⟩, ⟨"test.Number", some 4, 3, 0, false⟩,
      ⟨"test.Shape", none, 0, 2, true⟩, ⟨"test.Square", none, 8, 1, true⟩,
      ⟨"test.Circle", none, 8, 0, true⟩] := by
  refine (undisturbed_iff _).2 (fun r hr index hindex => ?_) (fun r hr hclaimed => ?_)
  · simp only [List.mem_cons, List.not_mem_nil, or_false] at hr
    rcases hr with rfl | rfl | rfl | rfl | rfl
    all_goals
      cases hindex
      try decide
  · simp only [List.mem_cons, List.not_mem_nil, or_false] at hr
    rcases hr with rfl | rfl | rfl | rfl | rfl
    · rfl
    · rfl
    all_goals exact absurd rfl hclaimed

/-- A type that claims index 3 with two slots for children, a type that claims index 4, and a child of
the first: the child takes the index of the second. -/
theorem childOfClaimed_not_undisturbed :
    ¬ Undisturbed [⟨"test.Claimed", some 3, 0, 2, true⟩, ⟨"test.Neighbour", some 4, 0, 0, true⟩,
      ⟨"test.Child", none, 3, 0, true⟩] := by
  intro h
  have hindices := (h.indices _ (List.prefix_refl _)).distinct "test.Neighbour" "test.Child" 4 rfl rfl
  exact absurd hindices (by decide)

end TypeTable

end ObjectRuntime
