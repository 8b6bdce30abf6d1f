import ObjectRuntime.Proofs.Boundary.Filling
import ObjectRuntime.Proofs.Container.Array
import ObjectRuntime.Proofs.Object.Recounting
import ObjectRuntime.Proofs.Reflection.Building
set_option autoImplicit false

/-!
# Arguments cross the boundary unchanged

A callee that reads the cells of values, in any order, reads the values (`Arguments.Claimed` is what
it has left of the slots), and whatever it reads, every reference is still counted afterwards
(`Incoming.Accounts`).
-/

namespace ObjectRuntime

open Heap (Owned Grown)

variable {κ α β : Type}

/-- The elements at some positions. -/
def elementsAt (positions : List Nat) (as : List α) : List α := positions.filterMap (as[·]?)

theorem elementsAt_of_none {i : Nat} {as : List α} (h : as[i]? = none) (positions : List Nat) :
    elementsAt (i :: positions) as = elementsAt positions as := List.filterMap_cons_none h

theorem elementsAt_of_some {i : Nat} {as : List α} {a : α} (h : as[i]? = some a)
    (positions : List Nat) : elementsAt (i :: positions) as = a :: elementsAt positions as :=
  List.filterMap_cons_some h

namespace Arguments

variable {a a' : Arguments} {vs : List Value} {v : Value} {slot i : Nat}

/-! ## What is left of the slots -/

/-- The slots once the values at some positions have been read. -/
structure Claimed (vs : List Value) (read : Nat → Prop) (a : Arguments) : Prop where
  length : a.slots.length = (vs.filterMap Value.moved?).length
  empty : ∀ {i id}, vs[i]? = some (.object .moved id) → read i → a.slots[slotOf vs i]? = some none
  full : ∀ {i id}, vs[i]? = some (.object .moved id) → ¬ read i →
    a.slots[slotOf vs i]? = some (some id)

theorem Holds.claimed (h : a.Holds vs) : Claimed vs (fun _ => False) a where
  length := by rw [h.slots, List.length_map]
  empty _ hread := hread.elim
  full hv _ := by rw [h.slots, List.getElem?_map, getElem?_slotOf hv]; rfl

/-- What is left of the cells once a value has been read: a moved object leaves its slot. -/
def claim (a : Arguments) (slot : Nat) : Value → Arguments
  | .object .moved _ => { a with slots := a.slots.set slot none }
  | _ => a

/-- The value at one more position is read. -/
theorem Claimed.claim {read : Nat → Prop} (h : Claimed vs read a) (hv : vs[i]? = some v)
    (hi : ¬ read i) : Claimed vs (fun j => j = i ∨ read j) (a.claim (slotOf vs i) v) := by
  by_cases hmoved : ∃ id, v = .object .moved id
  · obtain ⟨id, rfl⟩ := hmoved
    have hlt : slotOf vs i < a.slots.length :=
      (List.getElem?_eq_some_iff.mp (h.full hv hi)).1
    refine ⟨by simpa [Arguments.claim] using h.length, fun {j id'} hj hread => ?_,
      fun {j id'} hj hread => ?_⟩
    · simp only [Arguments.claim, List.getElem?_set]
      split
      · rfl
      · rename_i hne
        refine h.empty hj (hread.resolve_left ?_)
        rintro rfl
        exact hne rfl
    · have hne : slotOf vs i ≠ slotOf vs j := fun heq =>
        hread (.inl (slotOf_inj hv hj heq).symm)
      simp only [Arguments.claim, List.getElem?_set_ne hne]
      exact h.full hj fun hj' => hread (.inr hj')
  · have hsame : a.claim (slotOf vs i) v = a := by
      cases v with
      | object tag id =>
          cases tag with
          | moved => exact absurd ⟨id, rfl⟩ hmoved
          | _ => rfl
      | _ => rfl
    rw [hsame]
    refine ⟨h.length, fun hj hread => h.empty hj (hread.resolve_left ?_),
      fun hj hread => h.full hj fun hj' => hread (.inr hj')⟩
    rintro rfl
    rw [hv] at hj
    exact hmoved ⟨_, Option.some.inj hj⟩

/-- A value that is read has its reference from the slot or a new one. -/
theorem count_claim (hslot : ∀ id, v.moved? = some id → a.slots[slot]? = some (some id)) (x : ObjId) :
    (a.claim slot v).references.count x + v.moved?.toList.count x = a.references.count x := by
  by_cases hmoved : ∃ id, v = .object .moved id
  · obtain ⟨id, rfl⟩ := hmoved
    have hid := hslot id rfl
    have hperm : List.Perm ((a.slots.set slot none).reduceOption ++ (a.slots[slot]?.join).toList)
        (a.slots.reduceOption ++ []) :=
      Arr.reduceOption_set_perm (List.getElem?_eq_some_iff.mp hid).1
    have hcount := hperm.count_eq x
    rw [hid] at hcount
    simp only [List.count_append, Option.join_some, List.count_nil] at hcount
    simp only [Arguments.claim, references, List.count_append, Value.moved?]
    omega
  · cases v with
    | object tag id =>
        cases tag with
        | moved => exact absurd ⟨id, rfl⟩ hmoved
        | _ => rfl
    | _ => rfl

end Arguments

/-! ## Reading -/

namespace Incoming

open Arguments (Holds Claimed slotOf)

variable {a a' : Arguments} {vs : List Value} {v : Value} {c : Cell} {cs : List Cell} {slot : Nat}
  {w w' : World κ} {others : List ObjId}

theorem get_bind (f : Arguments → Incoming κ β) (a : Arguments) (w : World κ) :
    ((get : Incoming κ Arguments) >>= f) a w = f a a w := rfl

theorem bind_of_ok {x : Incoming κ α} {f : α → Incoming κ β} {r : α}
    (hx : x a w = ((.ok r, a'), w')) : (x >>= f) a w = f r a' w' := by
  simp only [bind, ExceptT.bind, ExceptT.mk, StateT.bind, hx]
  rfl

theorem bind_of_error {x : Incoming κ α} {f : α → Incoming κ β} {fault : Fault}
    (hx : x a w = ((.error fault, a'), w')) : (x >>= f) a w = ((.error fault, a'), w') := by
  simp only [bind, ExceptT.bind, ExceptT.mk, StateT.bind, hx]
  rfl

theorem releasingOnFault_of_ok {ids : List ObjId} {x : Incoming κ α} {r : α}
    (hx : x a w = ((.ok r, a'), w')) : releasingOnFault ids x a w = ((.ok r, a'), w') := by
  simp only [releasingOnFault, hx]

theorem releasingOnFault_of_error {ids : List ObjId} {x : Incoming κ α} {fault : Fault}
    (hx : x a w = ((.error fault, a'), w')) : releasingOnFault ids x a w =
      ((.error fault, a'), { w' with heap := ids.foldl Heap.release w'.heap }) := by
  simp only [releasingOnFault, hx]

theorem readCell_of_error {cause : Error} (hread : c.read a.slots = .error cause) :
    readCell c a w = ((.error (.error cause), a), w) := by
  rw [readCell, get_bind, hread]
  rfl

theorem readCell_of_ok (hread : c.read a.slots = .ok v) :
    readCell c a w = (do own c v; pure v : Incoming κ Value) a w := by
  rw [readCell, get_bind, hread]

/-- The cell of a value is read as the value, which owns a reference. -/
theorem readCell_of_ofValue (hc : Cell.ofValue slot v = .ok c)
    (hslot : ∀ id, v.moved? = some id → a.slots[slot]? = some (some id)) :
    readCell c a w = ((.ok v, a.claim slot v),
      w.withHeap (w.heap.retainAll v.passed?.toList)) := by
  rw [readCell_of_ok (Cell.read_of_ofValue hc hslot)]
  cases v with
  | object tag id =>
      cases tag
      all_goals
        cases hc
        rfl
  | _ => rfl

/-- The cells at distinct positions are read as the values there, in any order. -/
theorem readCells_of_holds {a₀ : Arguments} (h : a₀.Holds vs) :
    ∀ (positions : List Nat) {read : Nat → Prop} {a : Arguments} {w : World κ},
      Claimed vs read a → positions.Nodup → (∀ i ∈ positions, ¬ read i) →
      ∃ a', readCells (elementsAt positions a₀.cells) a w =
          ((.ok (elementsAt positions vs), a'),
            w.withHeap (w.heap.retainAll ((elementsAt positions vs).filterMap Value.passed?))) ∧
        Claimed vs (fun j => j ∈ positions ∨ read j) a' ∧
        ∀ x, a'.references.count x +
            ((elementsAt positions vs).filterMap Value.moved?).count x =
          a.references.count x
  | [], read, a, w, ha, _, _ => ⟨a, rfl, by simpa using ha, fun x => rfl⟩
  | i :: rest, read, a, w, ha, hnodup, hread => by
      obtain ⟨hi, hrest⟩ := List.nodup_cons.mp hnodup
      obtain ⟨hiread, hrestread⟩ := List.forall_mem_cons.mp hread
      have hmerge : ∀ j, (j ∈ rest ∨ j = i ∨ read j) = (j ∈ i :: rest ∨ read j) := by
        intro j
        rw [List.mem_cons, ← or_assoc, or_comm (a := j ∈ rest)]
      cases hv : vs[i]? with
      | none =>
          have hcell : a₀.cells[i]? = none := by
            rw [List.getElem?_eq_none_iff] at hv ⊢
            rwa [h.length]
          obtain ⟨a', hrun, ha', hcount⟩ := readCells_of_holds h rest (w := w) ha hrest hrestread
          refine ⟨a', ?_, ⟨ha'.length, fun {j id} hj hin => ?_, fun hj hout => ?_⟩, ?_⟩
          · rw [elementsAt_of_none hcell, elementsAt_of_none hv]
            exact hrun
          · refine ha'.empty hj (hin.imp_left fun hmem => ?_)
            rcases List.mem_cons.mp hmem with rfl | hmem
            · rw [hv] at hj
              cases hj
            · exact hmem
          · exact ha'.full hj fun hin => hout (hin.imp_left (List.mem_cons_of_mem i))
          · rwa [elementsAt_of_none hv]
      | some v =>
          obtain ⟨c, hc, hofValue⟩ := h.cell hv
          have hslot : ∀ id, v.moved? = some id → a.slots[slotOf vs i]? = some (some id) := by
            intro id hid
            rw [Value.eq_of_moved? hid] at hv
            exact ha.full hv hiread
          have hfirst := readCell_of_ofValue (w := w) hofValue hslot
          have hclaimed := ha.claim hv hiread
          have hnot : ∀ j ∈ rest, ¬ (j = i ∨ read j) := by
            rintro j hj (rfl | hr)
            · exact hi hj
            · exact hrestread j hj hr
          obtain ⟨a', hrun, ha', hcount⟩ := readCells_of_holds h rest
            (w := w.withHeap (w.heap.retainAll v.passed?.toList)) hclaimed hrest hnot
          refine ⟨a', ?_, ?_, fun x => ?_⟩
          · rw [elementsAt_of_some hc, elementsAt_of_some hv, readCells,
              bind_of_ok hfirst, bind_of_ok (releasingOnFault_of_ok hrun), filterMap_cons_eq,
              Heap.retainAll_append]
            rfl
          · simpa only [hmerge] using ha'
          · have hone := Arguments.count_claim hslot x
            have hmore := hcount x
            rw [elementsAt_of_some hv, filterMap_cons_eq, List.count_append]
            omega

/-! ## Conservation -/

/-- What an operation on cells leaves: the references held by the cells stay, and with those in its
result and the others all are counted. -/
structure Accounts (gives : α → List ObjId) (others : List ObjId) (a : Arguments) (w : World κ)
    (result : (Except Fault α × Arguments) × World κ) : Prop where
  held : result.1.2.held = a.held
  leaves : w.heap.Leaves
    (result.1.1.toOption.elim [] gives ++ (result.1.2.references ++ others)) result.2.heap

/-- The objects in cells are held by their owner. -/
def Lent (a : Arguments) (cs : List Cell) : Prop :=
  ∀ c ∈ cs, ∀ id, c.content = .object id → id ∈ a.held

/-- Reading a cell takes a reference or moves one. -/
theorem accounts_readCell (hb : w.heap.Owned (a.references ++ others))
    (hc : ∀ id, c.content = .object id → id ∈ a.held) :
    Accounts (·.object?.toList) others a w (readCell c a w) := by
  cases hread : c.read a.slots with
  | error cause =>
      rw [readCell_of_error hread]
      exact ⟨rfl, .refl hb⟩
  | ok v =>
      rw [readCell_of_ok hread]
      cases hobject : v.object? with
      | none =>
          have hrun : (do own c v; pure v : Incoming κ Value) a w = ((.ok v, a), w) := by
            cases v with
            | object tag id => cases hobject
            | _ => rfl
          rw [hrun]
          exact ⟨rfl, .refl (by simpa [Except.toOption, hobject] using hb)⟩
      | some id =>
          rcases Cell.object_of_read hread hobject with ⟨hcontent, hpassed⟩ | ⟨slot, hcontent, hid, rfl⟩
          · have hrun : (do own c v; pure v : Incoming κ Value) a w =
                ((.ok v, a), { w with heap := w.heap.retain id }) := by
              cases v with
              | object tag id' =>
                  cases tag with
                  | moved => cases hpassed
                  | _ =>
                      cases hobject
                      rfl
              | _ => cases hobject
            rw [hrun]
            have hmem : id ∈ a.references ++ others :=
              List.mem_append_left _ (List.mem_append_right _ (hc id hcontent))
            exact ⟨rfl, by simpa [Except.toOption, hobject] using Heap.Leaves.retain hb hmem⟩
          · have hrun : (do own c (.object .moved id); pure (.object .moved id) : Incoming κ Value)
                a w = ((.ok (.object .moved id), a.claim slot (.object .moved id)), w) := by
              obtain ⟨code, content⟩ := c
              cases hcontent
              rfl
            rw [hrun]
            refine ⟨rfl, .refl (hb.congr fun x => ?_)⟩
            have hcount := Arguments.count_claim (v := .object .moved id)
              (fun id' hid' => by cases hid'; exact hid) x
            simp only [Except.toOption, Option.elim, List.count_append, Value.object?,
              Value.moved?] at hcount ⊢
            omega

/-- Whatever cells are read, the references in what has been read are the reader's. -/
theorem accounts_readCells : ∀ (cs : List Cell) {a : Arguments} {w : World κ} {others : List ObjId},
    w.heap.Owned (a.references ++ others) → Lent a cs →
      Accounts (·.filterMap Value.object?) others a w (readCells cs a w)
  | [], a, w, others, hb, _ => ⟨rfl, .refl hb⟩
  | c :: rest, a, w, others, hb, hlent => by
      have hfirst := accounts_readCell hb (hlent c List.mem_cons_self)
      rw [readCells]
      rcases hrun : readCell c a w with ⟨⟨fault | v, a₁⟩, w₁⟩
      all_goals rw [hrun] at hfirst
      · rw [bind_of_error hrun]
        exact ⟨hfirst.held, hfirst.leaves⟩
      · rw [bind_of_ok hrun]
        have hb₁ : w₁.heap.Owned (a₁.references ++ (v.object?.toList ++ others)) :=
          hfirst.leaves.owned.perm (List.perm_append_comm_assoc _ _ _)
        have hlent₁ : Lent a₁ rest := fun c' hc' id hid => by
          rw [hfirst.held]
          exact hlent c' (List.mem_cons_of_mem c hc') id hid
        have hrest := accounts_readCells rest hb₁ hlent₁
        rcases hrun₁ : readCells rest a₁ w₁ with ⟨⟨fault | vs, a₂⟩, w₂⟩
        all_goals rw [hrun₁] at hrest
        · rw [bind_of_error (releasingOnFault_of_error hrun₁)]
          have hb₂ : w₂.heap.Owned (v.object?.toList ++ (a₂.references ++ others)) :=
            hrest.leaves.owned.perm (List.perm_append_comm_assoc _ _ _)
          exact ⟨hrest.held.trans hfirst.held,
            (hfirst.leaves.trans hrest.leaves).trans (.releases hb₂)⟩
        · rw [bind_of_ok (releasingOnFault_of_ok hrun₁)]
          refine ⟨hrest.held.trans hfirst.held, (hfirst.leaves.trans hrest.leaves).perm ?_⟩
          have hobjects := filterMap_cons_eq Value.object? v vs
          refine List.perm_iff_count.mpr fun x => ?_
          change List.count x ((v :: vs).filterMap Value.object? ++ (a₂.references ++ others)) =
            List.count x (vs.filterMap Value.object? ++
              (a₂.references ++ (v.object?.toList ++ others)))
          rw [hobjects]
          simp only [List.count_append]
          omega

/-- A callee that reads some of its cells. -/
def collect (pick : List Cell → List Cell) : Incoming κ (List Value) := do
  readCells (pick (← get).cells)

/-- A callee that reads some of its cells and gives up what it has read. -/
def consume (pick : List Cell → List Cell) : Incoming κ Unit := do
  let vs ← collect pick
  ofRun (Run.releaseAll (vs.filterMap Value.object?))

theorem accounts_consume {pick : List Cell → List Cell}
    (hb : w.heap.Owned (a.references ++ others)) (hlent : Lent a (pick a.cells)) :
    Accounts (fun _ => []) others a w (consume pick a w) := by
  have hread : Accounts (·.filterMap Value.object?) others a w (collect pick a w) :=
    accounts_readCells _ hb hlent
  rw [consume]
  rcases hrun : collect pick a w with ⟨⟨fault | vs, a₁⟩, w₁⟩
  all_goals rw [hrun] at hread
  · rw [bind_of_error hrun]
    exact ⟨hread.held, hread.leaves⟩
  · rw [bind_of_ok hrun]
    exact ⟨hread.held, hread.leaves.trans (.releases hread.leaves.owned)⟩

end Incoming

namespace Run

open Incoming (Accounts Lent collect consume accounts_readCells accounts_consume)

variable {vs : List Value} {w : World κ} {others : List ObjId} {gives : α → List ObjId}
  {body : Incoming κ α} {pick : List Cell → List Cell}

/-- The cells of values lend the objects that are passed. -/
theorem lent_of_holds {a : Arguments} (h : a.Holds vs) : Lent a a.cells := by
  intro c hc id hid
  obtain ⟨i, hi, rfl⟩ := List.getElem_of_mem hc
  have hlt : i < vs.length := h.length ▸ hi
  obtain ⟨c', hc', hv⟩ := h.cell (List.getElem?_eq_getElem hlt)
  rw [List.getElem?_eq_getElem hi] at hc'
  cases hc'
  rw [h.held]
  exact List.mem_filterMap.mpr ⟨vs[i], List.getElem_mem hlt, Cell.content_of_passed hv hid⟩

/-- What is left in cells after a call is given up. -/
theorem leaves_withCells {a : Arguments} (h : Accounts gives others a w (body a w)) :
    w.heap.Leaves ((withCells a body w).1.toOption.elim [] gives ++ others)
      (withCells a body w).2.heap := by
  have hleaves := h.leaves
  rw [withCells]
  rcases hrun : body a w with ⟨⟨answer, a₁⟩, w₁⟩
  rw [hrun] at hleaves
  have howned := hleaves.owned.perm (List.perm_append_comm_assoc _ _ _)
  exact hleaves.trans (.releases howned)

/-- The values are put into cells, or all given up because one of them has no cell. -/
theorem withArguments_cases (vs : List Value) (body : Incoming κ α) (w : World κ) :
    (∃ a, a.Holds vs ∧ withArguments vs body w = withCells a body w) ∨
      ∃ fault ids, List.Perm ids (vs.filterMap Value.object?) ∧
        withArguments vs body w =
          (.error fault, w.withHeap (ids.foldl Heap.release w.heap)) := by
  rcases Arguments.holds_empty.addAll vs with ⟨a, hfill, ha, -⟩ | ⟨u, done, hfill, -, hu, hvs, -⟩
  · refine .inl ⟨a, ha, ?_⟩
    simp only [withArguments, Arguments.ofValues, hfill]
  · refine .inr ⟨.error u.cause, u.references, Arguments.Unfilled.references_perm hu hvs, ?_⟩
    simp only [withArguments, Arguments.ofValues, hfill]
    rfl

/-- Values that are passed to a callee which accounts for its cells are given up, whether or not
they can all be put into cells. -/
theorem leaves_withArguments (body : Incoming κ α) (hb : w.heap.Owned (vs.filterMap Value.object? ++ others))
    (hbody : ∀ a, a.Holds vs → w.heap.Owned (a.references ++ others) →
      Accounts gives others a w (body a w)) :
    w.heap.Leaves ((withArguments vs body w).1.toOption.elim [] gives ++ others)
      (withArguments vs body w).2.heap := by
  rcases withArguments_cases vs body w with ⟨a, ha, hrun⟩ | ⟨fault, ids, hids, hrun⟩
  · rw [hrun]
    exact leaves_withCells (hbody a ha (hb.perm (ha.references_perm.append_right others)))
  · rw [hrun]
    exact .releases (hb.perm (hids.append_right others))

end Run

/-! ## Marshalling -/

/-- The worlds differ in the counts of objects only. -/
structure World.SameButCounts (w w' : World κ) : Prop where
  world : w' = w.withHeap w'.heap
  alike : w.heap.Alike w'.heap
  hooks : w'.heap.hooksRun = w.heap.hooksRun

/-- What there is once the cells at some positions have been read: each object that was passed has
one more reference, a moved one has left its slot, and besides counts nothing has changed. -/
structure Arguments.Decoded (vs : List Value) (positions : List Nat) (a : Arguments) (w : World κ)
    (a' : Arguments) (w' : World κ) : Prop where
  run : Incoming.readCells (elementsAt positions a.cells) a w =
    ((.ok (elementsAt positions vs), a'), w')
  same : w.SameButCounts w'
  count : ∀ x, w'.heap.count x =
    w.heap.count x + ((elementsAt positions vs).filterMap Value.passed?).count x
  owners : ∀ x, ((elementsAt positions vs).filterMap Value.object?).count x +
      a'.references.count x =
    (vs.filterMap Value.object?).count x +
      ((elementsAt positions vs).filterMap Value.passed?).count x
  slot : ∀ i id, vs[i]? = some (.object .moved id) → ∃ n,
    a.cells[i]? = some ⟨TypeCode.moved, .slot n⟩ ∧ a.slots[n]? = some (some id) ∧
      a'.slots[n]? = some (if i ∈ positions then none else some id)

theorem Arguments.Holds.decoded {a : Arguments} {vs : List Value} {w : World κ}
    {others : List ObjId} (h : a.Holds vs)
    (hb : w.heap.Owned (vs.filterMap Value.object? ++ others)) {positions : List Nat}
    (hnodup : positions.Nodup) : ∃ a' w', Decoded vs positions a w a' w' := by
  obtain ⟨a', hrun, hclaimed, hcount⟩ :=
    Incoming.readCells_of_holds (w := w) h positions h.claimed hnodup fun _ _ => id
  have hpassed : ∀ x ∈ (elementsAt positions vs).filterMap Value.passed?,
      ∃ o, w.heap.get? x = some o := by
    intro x hx
    obtain ⟨v, hv, hx⟩ := List.mem_filterMap.mp hx
    obtain ⟨i, -, hv⟩ := List.mem_filterMap.mp hv
    have hobject : v.object? = some x := by
      cases v with
      | object tag id => cases tag <;> cases hx <;> rfl
      | _ => cases hx
    exact hb.alive_of_mem (List.mem_append_left _
      (List.mem_filterMap.mpr ⟨v, List.mem_of_getElem? hv, hobject⟩))
  refine ⟨a', _, hrun, ⟨rfl, Heap.alike_retainAll hpassed, Heap.hooksRun_retainAll _ _⟩,
    hb.count_retainAll hpassed, fun x => ?_, fun i id hv => ?_⟩
  · have hmove := hcount x
    have hall := (moved_append_passed_perm (elementsAt positions vs)).count_eq x
    have howned := h.references_perm.count_eq x
    rw [List.count_append] at hall
    omega
  · obtain ⟨c, hc, hcell⟩ := h.cell hv
    cases hcell
    refine ⟨slotOf vs i, hc, h.claimed.full hv not_false, ?_⟩
    split
    · rename_i hi
      exact hclaimed.empty hv (.inl hi)
    · rename_i hi
      exact hclaimed.full hv (fun hin => hi (hin.resolve_right not_false))

/-- Values are marshalled without loss.  They have cells unless a text among them has a zero byte;
reading the cells gives the values back; and once everything is given up, whatever the callee has
read, the counts are as if the values had been given up. -/
theorem marshalling_lossless {w : World κ} {vs : List Value} {others : List ObjId}
    (hb : w.heap.Owned (vs.filterMap Value.object? ++ others)) :
    ((∃ u, Arguments.ofValues vs = .error u) ↔ ∃ v ∈ vs, v.HasZero) ∧
    (∀ u, Arguments.ofValues vs = .error u → u.cause = .embeddedNul) ∧
    (∀ a, Arguments.ofValues vs = .ok a → a.cells.length = vs.length ∧
      List.Perm a.references (vs.filterMap Value.object?) ∧
      ∀ positions : List Nat, positions.Nodup → ∃ a' w',
        Arguments.Decoded vs positions a w a' w') ∧
    (∀ pick : List Cell → List Cell, (∀ cs, pick cs ⊆ cs) →
      (Run.withArguments vs (Incoming.consume pick) w).2.heap.cells =
        ((vs.filterMap Value.object?).foldl Heap.release w.heap).cells ∧
      ((do
          let read ← Run.withArguments vs (Incoming.collect pick)
          Run.releaseAll (read.filterMap Value.object?) : Run κ Unit) w).2.heap.cells =
        ((vs.filterMap Value.object?).foldl Heap.release w.heap).cells) := by
  have hfill := Arguments.holds_empty.addAll vs
  rw [List.nil_append] at hfill
  have hdropped : w.heap.Leaves others ((vs.filterMap Value.object?).foldl Heap.release w.heap) :=
    .releases hb
  have hlent : ∀ {pick : List Cell → List Cell}, (∀ cs, pick cs ⊆ cs) → ∀ a : Arguments,
      a.Holds vs → Incoming.Lent a (pick a.cells) :=
    fun hpick a ha c hc => Run.lent_of_holds ha c (hpick _ hc)
  refine ⟨?_, ?_, ?_, fun pick hpick => ⟨?_, ?_⟩⟩
  · rcases hfill with ⟨a, hfill, -, hnone⟩ | ⟨u, done, hfill, -, -, -, hsome⟩
    · constructor
      · rintro ⟨u, hu⟩
        rw [Arguments.ofValues, hfill] at hu
        cases hu
      · rintro ⟨v, hv, hzero⟩
        exact absurd hzero (hnone v hv)
    · exact ⟨fun _ => hsome, fun _ => ⟨u, hfill⟩⟩
  · intro u hu
    rcases hfill with ⟨a, hfill, -⟩ | ⟨u', done, hfill, hcause, -⟩
    all_goals
      rw [Arguments.ofValues, hfill] at hu
      cases hu
    exact hcause
  · intro a ha
    rcases hfill with ⟨a', hfill, hholds, -⟩ | ⟨u, done, hfill, -⟩
    all_goals
      rw [Arguments.ofValues, hfill] at ha
      cases ha
    exact ⟨hholds.length, hholds.references_perm, fun positions hnodup => hholds.decoded hb hnodup⟩
  · have hleaves := Run.leaves_withArguments (Incoming.consume pick) hb fun a ha hb' =>
      Incoming.accounts_consume hb' (hlent hpick a ha)
    have hnothing : ∀ answer : Except Fault Unit,
        answer.toOption.elim [] (fun _ => ([] : List ObjId)) = [] := by
      rintro (fault | _) <;> rfl
    rw [hnothing] at hleaves
    exact hdropped.cells_eq hleaves
  · have hleaves := Run.leaves_withArguments (Incoming.collect pick) hb fun a ha hb' =>
      Incoming.accounts_readCells _ hb' (hlent hpick a ha)
    rcases hrun : Run.withArguments vs (Incoming.collect pick) w with ⟨fault | read, w₁⟩
    all_goals rw [hrun] at hleaves
    · rw [run_bind_of_error hrun]
      exact hdropped.cells_eq hleaves
    · rw [run_bind_of_ok hrun]
      exact hdropped.cells_eq (hleaves.trans (.releases hleaves.owned))

/-- A world with two texts, one of which has two owners. -/
def sharedTexts : World Empty :=
  (World.initial : World Empty).withHeap
    (((Heap.empty.alloc 1 (.text "kept")).1.alloc 1 (.text "given")).1.retain ⟨0⟩)

/-- A number, a text, some bytes, an object that is passed and one that is moved. -/
def mixedValues : List Value :=
  [.int 7, .text "plain", .bytes [1, 0, 3], .object .object ⟨0⟩, .object .moved ⟨1⟩]

theorem owned_sharedTexts : sharedTexts.heap.Owned [⟨0⟩, ⟨1⟩, ⟨0⟩] := by
  have kept : (Heap.empty.alloc 1 (.text "kept") : Heap Empty × ObjId).1.Owned [⟨0⟩] :=
    Owned.empty.alloc
  have given : ((Heap.empty.alloc 1 (.text "kept")).1.alloc 1 (.text "given") :
      Heap Empty × ObjId).1.Owned [⟨1⟩, ⟨0⟩] := kept.alloc
  have alive : ((Heap.empty.alloc 1 (.text "kept")).1.alloc 1 (.text "given") :
      Heap Empty × ObjId).1.get? ⟨0⟩ = some ⟨1, 1, .text "kept"⟩ := rfl
  exact given.retain alive

theorem no_zero_mixedValues : ∀ v ∈ mixedValues, ¬ v.HasZero := by
  rintro v hv ⟨s, rfl, hs⟩
  simp only [mixedValues, List.mem_cons, Value.text.injEq, reduceCtorEq, false_or, or_false,
    List.not_mem_nil] at hv
  subst hv
  rw [Utf8.encode, ByteArray.toList_eq] at hs
  exact absurd hs (by decide)

/-- The object that is passed has one more reference, and the one that is moved has one. -/
theorem mixedValues_lossless : sharedTexts.heap.Owned (mixedValues.filterMap Value.object? ++ [⟨0⟩]) ∧
    ∃ a a' w', Arguments.ofValues mixedValues = .ok a ∧
      Arguments.Decoded mixedValues (List.range 5) a sharedTexts a' w' ∧
      w'.heap.count ⟨0⟩ = 3 ∧ w'.heap.count ⟨1⟩ = 1 := by
  have hb : sharedTexts.heap.Owned (mixedValues.filterMap Value.object? ++ [⟨0⟩]) :=
    owned_sharedTexts.perm (by decide)
  obtain ⟨hfails, -, hdecoded, -⟩ := marshalling_lossless hb
  cases hfill : Arguments.ofValues mixedValues with
  | error u =>
      obtain ⟨v, hv, hzero⟩ := hfails.mp ⟨u, hfill⟩
      exact absurd hzero (no_zero_mixedValues v hv)
  | ok a =>
  obtain ⟨-, -, hread⟩ := hdecoded a hfill
  obtain ⟨a', w', h⟩ := hread (List.range 5) (by decide)
  refine ⟨hb, a, a', w', rfl, h, ?_, ?_⟩
  · rw [h.count]
    rfl
  · rw [h.count]
    rfl

end ObjectRuntime
