import ObjectRuntime.Boundary.Arguments
import ObjectRuntime.Proofs.Boundary.Cells
set_option autoImplicit false

/-!
# Values are put into cells

`Arguments.Holds` says that cells are those of some values and own their references.  Adding a cell
keeps it, so that filling ends with the cells of all values, or at the first one that has none.
-/

namespace ObjectRuntime

variable {α β : Type}

theorem filterMap_cons_eq (f : α → Option β) (a : α) (as : List α) :
    (a :: as).filterMap f = (f a).toList ++ as.filterMap f := by
  cases h : f a with
  | none => rw [List.filterMap_cons_none h]; rfl
  | some b => rw [List.filterMap_cons_some h]; rfl

namespace Arguments

variable {a a' : Arguments} {vs rest : List Value} {v : Value} {c : Cell} {slot i j : Nat}
  {id id' : ObjId}

/-! ## Slots -/

/-- The slot for the value at a position, if that is moved. -/
def slotOf (vs : List Value) (position : Nat) : Nat :=
  ((vs.take position).filterMap Value.moved?).length

theorem slotOf_succ (hv : vs[i]? = some (.object .moved id)) :
    slotOf vs (i + 1) = slotOf vs i + 1 := by
  rw [slotOf, List.take_add_one, hv, List.filterMap_append, List.length_append]
  rfl

theorem slotOf_mono (vs : List Value) (hle : i ≤ j) : slotOf vs i ≤ slotOf vs j :=
  ((List.take_sublist_take_left hle).filterMap _).length_le

/-- Two moved values have two slots. -/
theorem slotOf_inj (hi : vs[i]? = some (.object .moved id)) (hj : vs[j]? = some (.object .moved id'))
    (heq : slotOf vs i = slotOf vs j) : i = j := by
  have hlt : ∀ {i j id}, vs[i]? = some (.object .moved id) → i < j → slotOf vs i < slotOf vs j := by
    intro i j id hi hij
    have := slotOf_mono vs (Nat.succ_le_of_lt hij)
    rw [slotOf_succ hi] at this
    omega
  rcases Nat.lt_trichotomy i j with hij | rfl | hji
  · have := hlt hi hij
    omega
  · rfl
  · have := hlt hj hji
    omega

theorem getElem?_slotOf (hv : vs[i]? = some (.object .moved id)) :
    (vs.filterMap Value.moved?)[slotOf vs i]? = some id := by
  obtain ⟨hi, hv⟩ := List.getElem?_eq_some_iff.mp hv
  have hsplit : vs = vs.take i ++ .object .moved id :: vs.drop (i + 1) := by
    rw [← hv, List.cons_getElem_drop_succ, List.take_append_drop]
  have hmoved : vs.filterMap Value.moved? =
      (vs.take i).filterMap Value.moved? ++ id :: (vs.drop (i + 1)).filterMap Value.moved? := by
    conv_lhs => rw [hsplit]
    rw [List.filterMap_append]
    rfl
  rw [hmoved, slotOf, List.getElem?_append_right (Nat.le_refl _), Nat.sub_self]
  rfl

/-! ## Filling -/

/-- The cells are those of some values and own their references. -/
structure Holds (a : Arguments) (vs : List Value) : Prop where
  length : a.cells.length = vs.length
  cell : ∀ {i v}, vs[i]? = some v → ∃ c, a.cells[i]? = some c ∧ Cell.ofValue (slotOf vs i) v = .ok c
  held : a.held = vs.filterMap Value.passed?
  slots : a.slots = (vs.filterMap Value.moved?).map some

theorem holds_empty : empty.Holds [] := ⟨rfl, fun h => (by cases h), rfl, rfl⟩

theorem add_of_error {cause : Error} (hv : Cell.ofValue a.slots.length v = .error cause) :
    a.add v = .error cause := by
  simp only [add, hv]
  rfl

theorem add_of_ok (hv : Cell.ofValue a.slots.length v = .ok c) :
    a.add v = .ok ⟨a.cells ++ [c], a.held ++ v.passed?.toList,
      a.slots ++ v.moved?.toList.map some⟩ := by
  simp only [add, hv]
  cases v with
  | object tag id => cases tag <;> simp [Value.passed?, Value.moved?]
  | _ => simp [Value.passed?, Value.moved?]

/-- One more value. -/
theorem Holds.add (h : a.Holds vs) (hv : Cell.ofValue a.slots.length v = .ok c) :
    Holds ⟨a.cells ++ [c], a.held ++ v.passed?.toList, a.slots ++ v.moved?.toList.map some⟩
      (vs ++ [v]) := by
  refine ⟨by simp [h.length], fun {i v'} hi => ?_, ?_, ?_⟩
  · rcases Nat.lt_trichotomy i vs.length with hlt | heq | hgt
    · rw [List.getElem?_append_left hlt] at hi
      obtain ⟨c', hc', hv'⟩ := h.cell hi
      refine ⟨c', ?_, ?_⟩
      · rw [List.getElem?_append_left (h.length ▸ hlt), hc']
      · rw [slotOf, List.take_append_of_le_length (Nat.le_of_lt hlt)]
        exact hv'
    · subst heq
      have hlast : v' = v := by simpa using hi.symm
      subst hlast
      refine ⟨c, by simp [← h.length], ?_⟩
      rw [slotOf, List.take_left, ← List.length_map, ← h.slots]
      exact hv
    · rw [List.getElem?_eq_none (by simpa using hgt)] at hi
      cases hi
  · rw [List.filterMap_append, h.held]
    cases v with
    | object tag id => cases tag <;> rfl
    | _ => rfl
  · rw [List.filterMap_append, List.map_append, h.slots]
    cases v with
    | object tag id => cases tag <;> rfl
    | _ => rfl

/-- Filling ends when all values have cells, or at the first one that has none. -/
theorem Holds.addAll (h : a.Holds vs) (rest : List Value) :
    (∃ a', a.addAll rest = .ok a' ∧ a'.Holds (vs ++ rest) ∧ ∀ v ∈ rest, ¬ v.HasZero) ∨
      ∃ u done, a.addAll rest = .error u ∧ u.cause = .embeddedNul ∧ u.filled.Holds (vs ++ done) ∧
        rest = done ++ u.rest ∧ ∃ v ∈ rest, v.HasZero := by
  induction rest generalizing a vs with
  | nil => exact .inl ⟨a, rfl, by simpa using h, fun v hv => nomatch hv⟩
  | cons v rest ih =>
      by_cases hzero : v.HasZero
      · have hfail := add_of_error (a := a) (Cell.ofValue_of_hasZero hzero)
        refine .inr ⟨⟨.embeddedNul, a, v :: rest⟩, [], ?_, rfl, by simpa using h, rfl,
          v, List.mem_cons_self, hzero⟩
        simp only [Arguments.addAll, hfail]
      · obtain ⟨c, hc⟩ := Cell.exists_ofValue a.slots.length hzero
        have hadd := add_of_ok hc
        rcases ih (h.add hc) with ⟨a', hall, ha', hrest⟩ | ⟨u, done, hall, hcause, hu, hrest, hex⟩
        · refine .inl ⟨a', ?_, by simpa using ha', ?_⟩
          · simp only [Arguments.addAll, hadd, hall]
          · exact List.forall_mem_cons.mpr ⟨hzero, hrest⟩
        · refine .inr ⟨u, v :: done, ?_, hcause, by simpa using hu, by rw [hrest]; rfl, ?_⟩
          · simp only [Arguments.addAll, hadd, hall]
          · obtain ⟨v', hv', hzero'⟩ := hex
            exact ⟨v', List.mem_cons_of_mem v hv', hzero'⟩

theorem moved_append_passed_perm (vs : List Value) :
    List.Perm (vs.filterMap Value.moved? ++ vs.filterMap Value.passed?)
      (vs.filterMap Value.object?) := by
  induction vs with
  | nil => exact .nil
  | cons v vs ih =>
      cases v with
      | object tag id =>
          cases tag with
          | moved => exact ih.cons id
          | _ => exact List.perm_middle.trans (ih.cons id)
      | _ => exact ih

/-- The cells of values own one reference for each object. -/
theorem Holds.references_perm (h : a.Holds vs) :
    List.Perm a.references (vs.filterMap Value.object?) := by
  have hslots : ((vs.filterMap Value.moved?).map some).reduceOption =
      vs.filterMap Value.moved? := by simp [List.reduceOption]
  rw [references, h.held, h.slots, hslots]
  exact moved_append_passed_perm vs

/-- What is left of values that could not all be put into cells owns their references. -/
theorem Unfilled.references_perm {u : Unfilled} {done : List Value} (h : u.filled.Holds done)
    (hvs : vs = done ++ u.rest) : List.Perm u.references (vs.filterMap Value.object?) := by
  rw [hvs, List.filterMap_append, Unfilled.references]
  exact List.perm_append_comm.trans (h.references_perm.append_right _)

end Arguments

end ObjectRuntime
