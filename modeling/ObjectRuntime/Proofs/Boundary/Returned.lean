import ObjectRuntime.Proofs.Boundary.Marshalling
import ObjectRuntime.Sample.Callbacks
set_option autoImplicit false

/-!
# The reference that comes with a result

Code that writes its result straight into a cell gives a reference away with it.  The reader of the
cell reads it like an argument, for which a reference is added, and gives up one reference
afterwards.  For an object that is passed the two cancel (`Heap.release_retain`), and the reference
of the callee becomes that of the result.  For a moved object none has been added: its one reference
is taken from the slot and given up, so the result leads to an object that it does not own.
-/

namespace ObjectRuntime

namespace Cell

variable {slots : List Ref} {v : Value} {c : Cell} {id : ObjId}

/-- The codes under which a cell leads to an object. -/
def objectCodes : List Int :=
  [TypeCode.object, TypeCode.module, TypeCode.function, TypeCode.tensor]

/-- The object to which the cell leads. -/
def passes? (c : Cell) : Option ObjId :=
  match c.content with
  | .object id => if c.code ∈ objectCodes then some id else none
  | _ => none

/-- The object in the slot to which the cell leads. -/
def moves? (slots : List Ref) (c : Cell) : Option ObjId :=
  match c.content with
  | .slot index => if c.code = TypeCode.moved then slots[index]?.join else none
  | _ => none

/-- What a cell with the code of an object is read as. -/
theorem read_of_objectCode (slots : List Ref) (hcode : c.code ∈ objectCodes) :
    ∃ tag, tag ≠ .moved ∧ c.read slots = .ok (readObject tag c.content) := by
  obtain ⟨code, content⟩ := c
  simp only [objectCodes, List.mem_cons, List.not_mem_nil, or_false] at hcode
  rcases hcode with rfl | rfl | rfl | rfl
  · exact ⟨.object, by decide, rfl⟩
  · exact ⟨.module, by decide, rfl⟩
  · exact ⟨.function, by decide, rfl⟩
  · exact ⟨.tensor, by decide, rfl⟩

/-- Under every other code but that of moved objects no object is read. -/
theorem object?_of_read (hcode : c.code ∉ objectCodes) (hmoved : c.code ≠ TypeCode.moved)
    (h : c.read slots = .ok v) : v.object? = none := by
  obtain ⟨hobject, hmodule, hfunction, htensor⟩ : c.code ≠ TypeCode.object ∧
      c.code ≠ TypeCode.module ∧ c.code ≠ TypeCode.function ∧ c.code ≠ TypeCode.tensor := by
    simpa [objectCodes] using hcode
  simp only [read, beq_iff_eq, Bool.or_eq_true, hobject, hmodule, hfunction, htensor, hmoved,
    if_false] at h
  -- numbers, truth values, nothing, data types, devices and addresses
  iterate 8
    rcases ite_eq_iff.mp h with ⟨-, h⟩ | ⟨-, h⟩
    · cases h
      rfl
  -- a text
  rcases ite_eq_iff.mp h with ⟨-, h⟩ | ⟨-, h⟩
  · cases hcontent : c.content with
    | text bytes =>
        cases htext : readText bytes with
        | error cause =>
            simp only [hcontent, htext] at h
            cases h
        | ok s =>
            simp only [hcontent, htext] at h
            cases h
            rfl
    | _ =>
        simp only [hcontent] at h
        cases h
        rfl
  -- bytes
  rcases ite_eq_iff.mp h with ⟨-, h⟩ | ⟨-, h⟩
  · cases hcontent : c.content
    all_goals
      simp only [hcontent] at h
      cases h
      rfl
  · cases h

/-! ## The object that a cell carries -/

theorem passes?_eq_some : c.passes? = some id ↔ c.content = .object id ∧ c.code ∈ objectCodes := by
  obtain ⟨code, content⟩ := c
  cases content
  case object id' =>
    by_cases hcode : code ∈ objectCodes
    · simp [passes?, hcode]
    · simp [passes?, hcode]
  all_goals simp [passes?]

theorem moves?_eq_some : c.moves? slots = some id ↔
    ∃ index, c.content = .slot index ∧ c.code = TypeCode.moved ∧ slots[index]?.join = some id := by
  obtain ⟨code, content⟩ := c
  cases content
  case slot index =>
    by_cases hcode : code = TypeCode.moved
    · simp [moves?, hcode]
    · simp [moves?, hcode]
  all_goals simp [moves?]

/-- The object that the cell carries, which is passed or moved. -/
def carries? (slots : List Ref) (c : Cell) : Option ObjId := c.passes?.or (c.moves? slots)

/-- A moved object is not passed. -/
theorem passes?_of_moves (h : c.moves? slots = some id) : c.passes? = none := by
  obtain ⟨index, hcontent, -, -⟩ := moves?_eq_some.mp h
  simp only [passes?, hcontent]

theorem carries?_of_moves (h : c.moves? slots = some id) : c.carries? slots = some id := by
  rw [carries?, passes?_of_moves h, h]
  rfl

theorem carries?_of_unmoved (h : c.moves? slots = none) : c.carries? slots = c.passes? := by
  rw [carries?, h, Option.or_none]

theorem read_of_passes (h : c.passes? = some id) (slots : List Ref) :
    ∃ tag, tag ≠ .moved ∧ c.read slots = .ok (.object tag id) := by
  obtain ⟨hcontent, hcode⟩ := passes?_eq_some.mp h
  obtain ⟨tag, htag, hread⟩ := read_of_objectCode slots hcode
  rw [hcontent] at hread
  exact ⟨tag, htag, hread⟩

/-- What a cell with the code of moved objects is read as. -/
theorem read_of_movedCode (hcode : c.code = TypeCode.moved) :
    c.read slots = .ok (.ofRef .moved (c.moves? slots)) := by
  obtain ⟨code, content⟩ := c
  obtain rfl : code = TypeCode.moved := hcode
  cases content with
  | slot index =>
      have hmoves : moves? slots ⟨TypeCode.moved, .slot index⟩ = slots[index]?.join := by
        simp [moves?]
      rw [hmoves]
      cases hslot : slots[index]?.join
      all_goals
        simp only [read, hslot]
        rfl
  | _ => rfl

theorem read_of_moves (h : c.moves? slots = some id) :
    c.read slots = .ok (.object .moved id) := by
  obtain ⟨-, -, hcode, -⟩ := moves?_eq_some.mp h
  rw [read_of_movedCode hcode, h]
  rfl

/-- If a cell carries no object, none is read from it. -/
theorem object?_of_read_of_carries (h : c.carries? slots = none) (hread : c.read slots = .ok v) :
    v.object? = none := by
  obtain ⟨hpasses, hmoves⟩ := Option.or_eq_none_iff.mp h
  by_cases hcode : c.code ∈ objectCodes
  · obtain ⟨tag, -, hobject⟩ := read_of_objectCode slots hcode
    rw [hobject] at hread
    cases hread
    cases hcontent : c.content with
    | object id =>
        rw [passes?_eq_some.mpr ⟨hcontent, hcode⟩] at hpasses
        cases hpasses
    | _ => rfl
  by_cases hmoved : c.code = TypeCode.moved
  · rw [read_of_movedCode hmoved, hmoves] at hread
    cases hread
    rfl
  · exact object?_of_read hcode hmoved hread

end Cell

/-! ## Reading -/

variable {κ : Type} {a a' : Arguments} {c : Cell} {v : Value} {w w' : World κ} {id : ObjId}
  {others : List ObjId} {answer : Except Fault Value}

namespace Incoming

/-- Where no object is read, nothing changes. -/
theorem readReturned_of_idle (hidle : c.carries? a.slots = none) :
    ∃ answer : Except Fault Value, readReturned c a w = ((answer, a), w) ∧
      answer.toOption.elim [] (·.object?.toList) = [] := by
  cases hread : c.read a.slots with
  | error cause =>
      refine ⟨.error (.error cause), ?_, rfl⟩
      rw [readReturned, bind_of_error (readCell_of_error hread)]
  | ok v =>
      have hv := Cell.object?_of_read_of_carries hidle hread
      have hown : readCell c a w = ((.ok v, a), w) := by
        rw [readCell_of_ok hread]
        cases v with
        | object tag id => cases hv
        | _ => rfl
      refine ⟨.ok v.asResult, ?_, ?_⟩
      · rw [readReturned, bind_of_ok hown, hv]
        rfl
      · simp only [Except.toOption, Option.elim, Run.object?_asResult, hv, Option.toList_none]

/-- The reference that comes with an object becomes that of the result. -/
theorem readReturned_of_passes (hid : c.passes? = some id) (hlive : 0 < w.heap.count id) :
    ∃ v, readReturned c a w = ((.ok v, a), w) ∧ v.object? = some id := by
  obtain ⟨tag, htag, hread⟩ := Cell.read_of_passes hid a.slots
  have hown : readCell c a w = ((.ok (.object tag id), a), w.withHeap (w.heap.retain id)) := by
    rw [readCell_of_ok hread]
    cases tag with
    | moved => exact absurd rfl htag
    | _ => rfl
  refine ⟨(Value.object tag id).asResult, ?_, Run.object?_asResult _⟩
  rw [readReturned, bind_of_ok hown]
  have hback : w.withHeap ((w.heap.retain id).release id) = w := by
    rw [Heap.release_retain hlive]
    rfl
  exact congrArg (fun w' => ((Except.ok _, a), w')) hback

/-- The reference in a slot is taken out of it and given up. -/
theorem readReturned_of_moves {index : Nat} (hid : c.moves? a.slots = some id)
    (hcontent : c.content = .slot index) :
    readReturned c a w = ((.ok (.object .object id), { a with slots := a.slots.set index none }),
      w.withHeap (w.heap.release id)) := by
  have hown : readCell c a w =
      ((.ok (.object .moved id), { a with slots := a.slots.set index none }), w) := by
    rw [readCell_of_ok (Cell.read_of_moves hid)]
    obtain ⟨code, content⟩ := c
    cases hcontent
    rfl
  rw [readReturned, bind_of_ok hown]
  rfl

/-- Whatever is read, the reference that comes with it is the reader's afterwards. -/
theorem owned_readReturned (hb : w.heap.Owned (c.passes?.toList ++ (a.references ++ others)))
    (hunmoved : c.moves? a.slots = none) (hrun : readReturned c a w = ((answer, a'), w')) :
    w'.heap.Owned (answer.toOption.elim [] (·.object?.toList) ++ (a'.references ++ others)) := by
  have hcarries := Cell.carries?_of_unmoved hunmoved
  cases hid : c.passes? with
  | some id =>
      rw [hid] at hb
      have hlive : 0 < w.heap.count id := by
        obtain ⟨o, ho⟩ := hb.alive_of_mem List.mem_cons_self
        rw [Heap.count_of_get? ho]
        exact hb.used ho
      obtain ⟨v, hread, hv⟩ := readReturned_of_passes (a := a) hid hlive
      rw [hread] at hrun
      cases hrun
      simpa [Except.toOption, hv] using hb
  | none =>
      rw [hid] at hb hcarries
      obtain ⟨result, hread, hresult⟩ := readReturned_of_idle (w := w) hcarries
      rw [hread] at hrun
      cases hrun
      rw [hresult]
      exact hb

/-- The reader takes over the one reference that comes with an object: the object is in the result,
the slot from which it came is empty, no count has changed, and giving the result up lowers the
count of the object by one.  Where there is no object, no count changes. -/
structure TakesOver (c : Cell) (a : Arguments) (w : World κ) : Prop where
  carried : ∀ {id}, c.carries? a.slots = some id → ∃ v a' w',
    readReturned c a w = ((.ok v, a'), w') ∧ v.object? = some id ∧
      (∀ index, c.content = .slot index → a'.slots[index]?.join = none) ∧
      (∀ x, w'.heap.count x = w.heap.count x) ∧
      (Run.releaseAll v.object?.toList w').2.heap.count id + 1 = w'.heap.count id
  plain : c.carries? a.slots = none → ∀ x, (readReturned c a w).2.heap.count x = w.heap.count x

/-- An object that is not moved is taken over. -/
theorem takesOver_of_unmoved (hlive : ∀ id, c.carries? a.slots = some id → 0 < w.heap.count id)
    (hunmoved : c.moves? a.slots = none) : TakesOver c a w := by
  have hcarries := Cell.carries?_of_unmoved hunmoved
  constructor
  case carried =>
    intro id hid
    have hpos := hlive id hid
    rw [hcarries] at hid
    obtain ⟨v, hread, hv⟩ := readReturned_of_passes hid hpos
    refine ⟨v, a, w, hread, hv, fun index hcontent => ?_, fun x => rfl, ?_⟩
    · obtain ⟨hobject, -⟩ := Cell.passes?_eq_some.mp hid
      rw [hobject] at hcontent
      cases hcontent
    · rw [hv]
      exact Heap.count_release hpos
  case plain =>
    intro hidle x
    obtain ⟨answer, hread, -⟩ := readReturned_of_idle (w := w) hidle
    rw [hread]

/-- A moved object comes without its reference. -/
theorem count_readReturned_of_moves (hid : c.moves? a.slots = some id)
    (hlive : 0 < w.heap.count id) :
    ∃ a' w', readReturned c a w = ((.ok (.object .object id), a'), w') ∧
      (∀ index, c.content = .slot index → a'.slots[index]?.join = none) ∧
      w'.heap.count id + 1 = w.heap.count id := by
  obtain ⟨index, hcontent, -, -⟩ := Cell.moves?_eq_some.mp hid
  refine ⟨_, _, readReturned_of_moves hid hcontent, fun index' hcontent' => ?_,
    Heap.count_release hlive⟩
  rw [hcontent] at hcontent'
  cases hcontent'
  simp only [List.getElem?_set, if_true]
  split <;> rfl

/-- What is left of a moved object is what the others hold of it. -/
theorem owned_readReturned_of_moves (hb : w.heap.Owned (a.references ++ others))
    (hid : c.moves? a.slots = some id) :
    ∃ a' w', readReturned c a w = ((.ok (.object .object id), a'), w') ∧
      w'.heap.Owned (a'.references ++ others) := by
  obtain ⟨index, hcontent, -, hslot⟩ := Cell.moves?_eq_some.mp hid
  refine ⟨a.claim index (.object .moved id), _, readReturned_of_moves hid hcontent, ?_⟩
  refine Heap.Owned.release (hb.congr fun x => ?_)
  have hfull : ∀ id', (Value.object .moved id).moved? = some id' →
      a.slots[index]? = some (some id') := by
    rintro id' ⟨⟩
    exact Option.join_eq_some_iff.mp hslot
  have hcount := Arguments.count_claim hfull x
  simp only [Value.moved?, Option.toList_some, List.count_cons, List.count_nil] at hcount
  simp only [List.count_cons, List.count_append]
  omega

/-- Just the moved objects are not taken over. -/
theorem takesOver_iff (hlive : ∀ id, c.carries? a.slots = some id → 0 < w.heap.count id) :
    TakesOver c a w ↔ c.moves? a.slots = none := by
  refine ⟨fun htakes => ?_, takesOver_of_unmoved hlive⟩
  by_contra hmoves
  obtain ⟨id, hid⟩ := Option.ne_none_iff_exists'.mp hmoves
  have hcarries := Cell.carries?_of_moves hid
  obtain ⟨v, a', w', hrun, -, -, hsame, -⟩ := htakes.carried hcarries
  obtain ⟨a'', w'', hrun', -, hcount⟩ := count_readReturned_of_moves hid (hlive id hcarries)
  have hequal := hsame id
  rw [hrun] at hrun'
  cases hrun'
  omega

end Incoming

/-! ## Calls -/

namespace Incoming

/-- Takes the result of code that writes it straight into a cell, or fails with the last error if
there is none. -/
def takeResult : Option Cell → Incoming κ Value
  | none => do fail (.callFailed (← ofRun Boundary.lastError))
  | some cell => readReturned cell

/-- Code that is called with values ends with the reference that its result passes, besides those
that are left in its cells, and its result does not lead to a full slot. -/
structure HandsOver (body : Incoming κ (Option Cell)) (vs : List Value) (others : List ObjId)
    (w : World κ) : Prop where
  owned : ∀ {a answer a' w'}, a.Holds vs → w.heap.Owned (a.references ++ others) →
    body a w = ((answer, a'), w') →
    w'.heap.Owned ((answer.toOption.join.bind Cell.passes?).toList ++ (a'.references ++ others))
  unmoved : ∀ {a c a' w'}, a.Holds vs → body a w = ((.ok (some c), a'), w') →
    c.moves? a'.slots = none

/-- What such code hands over is what the caller has afterwards. -/
theorem HandsOver.owned_bind {body : Incoming κ (Option Cell)} {vs : List Value} {a₁ : Arguments}
    {w₁ : World κ} (hbody : HandsOver body vs others w) (ha : a.Holds vs)
    (hb : w.heap.Owned (a.references ++ others))
    (hrun : (body >>= takeResult) a w = ((answer, a₁), w₁)) :
    w₁.heap.Owned (answer.toOption.elim [] (·.object?.toList) ++ (a₁.references ++ others)) := by
  rcases hcall : body a w with ⟨⟨fault | result, a'⟩, w'⟩
  all_goals have hb' := hbody.owned ha hb hcall
  · rw [bind_of_error hcall] at hrun
    cases hrun
    exact hb'
  rw [bind_of_ok hcall] at hrun
  cases result with
  | none =>
      cases hrun
      exact hb'
  | some c => exact owned_readReturned hb' (hbody.unmoved ha hcall) hrun

end Incoming

namespace Run

open Incoming (HandsOver takeResult)

variable {α : Type} {vs : List Value}

/-- Whatever is called with values, they are given up, and what is left in the cells is too. -/
theorem owned_withArguments {body : Incoming κ α} {gives : α → List ObjId}
    {answer : Except Fault α} (hb : w.heap.Owned (vs.filterMap Value.object? ++ others))
    (hbody : ∀ {a answer a' w'}, a.Holds vs → w.heap.Owned (a.references ++ others) →
      body a w = ((answer, a'), w') →
      w'.heap.Owned (answer.toOption.elim [] gives ++ (a'.references ++ others)))
    (hrun : withArguments vs body w = (answer, w')) :
    w'.heap.Owned (answer.toOption.elim [] gives ++ others) := by
  rcases withArguments_cases vs body w with ⟨a, ha, hcells⟩ | ⟨fault, ids, hids, hfails⟩
  · rcases hcall : body a w with ⟨⟨answer₁, a₁⟩, w₁⟩
    have hb₁ := hbody ha (hb.perm (ha.references_perm.append_right others)) hcall
    rw [hcells, withCells, hcall] at hrun
    cases hrun
    exact (hb₁.perm (List.perm_append_comm_assoc _ _ _)).releases
  · rw [hfails] at hrun
    cases hrun
    exact (hb.perm (hids.append_right others)).releases

/-- A new object comes with a reference, and there is none if it cannot be made. -/
theorem owned_create {cls : ObjectClass} {payload : Payload κ} {answer : Except Fault ObjId}
    (hb : w.heap.Owned (payload.references ++ others))
    (hrun : create cls payload w = (answer, w')) :
    w'.heap.Owned (answer.toOption.toList ++ others) := by
  have hheap := (quiet_touch cls w).1
  rcases htouch : touch cls w with ⟨fault | first, w₁⟩
  all_goals
    rw [htouch] at hheap
    rw [← hheap] at hb
  · rw [create_of_untouched htouch] at hrun
    cases hrun
    exact hb.discard
  · rw [create_of_touch htouch] at hrun
    cases hrun
    exact hb.alloc

/-- Calls code that writes its result straight into a cell. -/
def callBackend (body : Incoming κ (Option Cell)) (vs : List Value) : Run κ Value :=
  withArguments vs (body >>= takeResult)

theorem owned_callBackend {body : Incoming κ (Option Cell)}
    (hb : w.heap.Owned (vs.filterMap Value.object? ++ others)) (hbody : HandsOver body vs others w)
    (hrun : callBackend body vs w = (answer, w')) :
    w'.heap.Owned (answer.toOption.elim [] (·.object?.toList) ++ others) :=
  owned_withArguments hb (fun ha hb' => hbody.owned_bind ha hb') hrun

/-- If the code returns a moved object, the result leads to it but owns no reference. -/
theorem owned_callBackend_of_moves {body : Incoming κ (Option Cell)}
    (hfill : Arguments.ofValues vs = .ok a) (hcall : body a w = ((.ok (some c), a'), w'))
    (hb : w'.heap.Owned (a'.references ++ others)) (hid : c.moves? a'.slots = some id) :
    ∃ w'', callBackend body vs w = (.ok (.object .object id), w'') ∧ w''.heap.Owned others := by
  obtain ⟨a'', w₁, hread, hb₁⟩ := Incoming.owned_readReturned_of_moves hb hid
  have htaken : (body >>= takeResult) a w = ((.ok (.object .object id), a''), w₁) :=
    (Incoming.bind_of_ok hcall).trans hread
  refine ⟨w₁.withHeap (a''.references.foldl Heap.release w₁.heap), ?_, hb₁.releases⟩
  simp only [callBackend, withArguments, hfill, withCells, htaken]
  rfl

end Run

namespace Backend

variable {vs : List Value}

theorem call_eq (b : Backend) (vs : List Value) :
    (b.call vs : Run κ Value) = Run.callBackend b.run vs := rfl

/-- The function only reads its cells, its result is not moved, and the result comes with a
reference to what it passes. -/
structure Returns (b : Backend) (a : Arguments) (w : World κ) (answer : Except Fault (Option Cell))
    (w' : World κ) : Prop where
  run : b.run a w = ((answer, a), w')
  unmoved : ∀ c, answer = .ok (some c) → c.moves? a.slots = none
  owned : ∀ {held}, w.heap.Owned held →
    w'.heap.Owned ((answer.toOption.join.bind Cell.passes?).toList ++ held)

/-- Without a result the last error is set. -/
theorem returns_of_failure {b : Backend} (message : String)
    (hrun : b.run a w = (do
      Incoming.ofRun (Boundary.setLastError message)
      return none : Incoming κ (Option Cell)) a w) :
    ∃ answer w', Returns b a w answer w' :=
  ⟨_, _, hrun, fun _ hc => (nomatch hc), fun hb => hb⟩

/-- A result without an object. -/
theorem returns_of_plain {b : Backend} {c : Cell} (hrun : b.run a w = ((.ok (some c), a), w))
    (hplain : c.carries? a.slots = none) : ∃ answer w', Returns b a w answer w' := by
  obtain ⟨hpasses, hmoves⟩ := Option.or_eq_none_iff.mp hplain
  refine ⟨_, w, hrun, ?_, fun hb => ?_⟩
  · rintro c' ⟨⟩
    exact hmoves
  · simpa [Except.toOption, hpasses] using hb

theorem exists_returns (b : Backend) (a : Arguments) (w : World κ) :
    ∃ answer w', Returns b a w answer w' := by
  cases b with
  | nothing => exact returns_of_plain (c := ⟨TypeCode.null, .zero⟩) rfl rfl
  | badCode => exact returns_of_plain (c := ⟨-5, .zero⟩) rfl rfl
  | double =>
      rcases hcells : a.cells with - | ⟨cell, - | ⟨cell', rest⟩⟩
      · refine returns_of_failure "double expects one integer" ?_
        rw [run, Incoming.get_bind, hcells]
      · by_cases hcode : cell.code = TypeCode.int
        · have hplain : ∀ n, Cell.carries? a.slots ⟨TypeCode.int, .ofI64 n⟩ = none := fun _ => rfl
          refine returns_of_plain ?_ (hplain (cell.content.toI64.add cell.content.toI64))
          rw [run, Incoming.get_bind, hcells]
          simp only [if_pos hcode]
          rfl
        · refine returns_of_failure "double expects one integer" ?_
          rw [run, Incoming.get_bind, hcells]
          simp only [if_neg hcode]
      · refine returns_of_failure "double expects one integer" ?_
        rw [run, Incoming.get_bind, hcells]
  | string =>
      rcases hcreate : Run.create .string (.text "backend") w with ⟨answer, w'⟩
      have hstep : (Callback.newString "backend" : Incoming κ ObjId) a w = ((answer, a), w') := by
        rw [Callback.newString, Incoming.ofRun, hcreate]
      have howned : ∀ {held}, w.heap.Owned held → w'.heap.Owned (answer.toOption.toList ++ held) :=
        fun hb => Run.owned_create hb hcreate
      cases answer with
      | error fault =>
          refine ⟨.error fault, w', ?_, fun _ hc => (nomatch hc), howned⟩
          rw [run, Incoming.get_bind]
          exact Incoming.bind_of_error hstep
      | ok id =>
          refine ⟨.ok (some ⟨TypeCode.object, .object id⟩), w', ?_, ?_, howned⟩
          · rw [run, Incoming.get_bind]
            exact Incoming.bind_of_ok hstep
          · rintro c ⟨⟩
            rfl

/-- Every function hands over the reference to what it returns. -/
theorem handsOver (b : Backend) (vs : List Value) (others : List ObjId) (w : World κ) :
    Incoming.HandsOver b.run vs others w := by
  constructor
  case owned =>
    intro a answer a' w' ha hb hrun
    obtain ⟨answer₁, w₁, h⟩ := exists_returns b a w
    rw [h.run] at hrun
    cases hrun
    exact h.owned hb
  case unmoved =>
    intro a c a' w' ha hrun
    obtain ⟨answer₁, w₁, h⟩ := exists_returns b a w
    rw [h.run] at hrun
    cases hrun
    exact h.unmoved c rfl

/-- A call of the function neither leaks nor gives up what is not its own. -/
theorem owned_call {b : Backend} (hb : w.heap.Owned (vs.filterMap Value.object? ++ others))
    (hrun : b.call vs w = (answer, w')) :
    w'.heap.Owned (answer.toOption.elim [] (·.object?.toList) ++ others) := by
  rw [call_eq] at hrun
  exact Run.owned_callBackend hb (b.handsOver vs others w) hrun

end Backend

/-! ## What is returned -/

namespace Boundary

open Incoming (TakesOver HandsOver readReturned)

/-- The reference that comes with a result is taken over unless the object is moved: a moved object
is taken from its slot, but the reference is given up.  A call of code that does not return a moved
object neither leaks what it returns nor gives it up twice. -/
theorem returned_takenOver_iff
    (hlive : ∀ id, c.carries? a.slots = some id → 0 < w.heap.count id) :
    (TakesOver c a w ↔ c.moves? a.slots = none) ∧
      (∀ id, c.moves? a.slots = some id → ∃ a' w',
        readReturned c a w = ((.ok (.object .object id), a'), w') ∧
        (∀ index, c.content = .slot index → a'.slots[index]?.join = none) ∧
        w'.heap.count id + 1 = w.heap.count id) ∧
      ∀ {body : Incoming κ (Option Cell)} {vs : List Value} {others : List ObjId}
        {answer : Except Fault Value} {w' : World κ},
        w.heap.Owned (vs.filterMap Value.object? ++ others) → HandsOver body vs others w →
        Run.callBackend body vs w = (answer, w') →
        w'.heap.Owned (answer.toOption.elim [] (·.object?.toList) ++ others) :=
  ⟨Incoming.takesOver_iff hlive,
    fun _ hid => Incoming.count_readReturned_of_moves hid (hlive _ (Cell.carries?_of_moves hid)),
    fun hb hbody hrun => Run.owned_callBackend hb hbody hrun⟩

/-- A text with two owners is taken over, and one that is made anew has one owner. -/
theorem keptText_takenOver :
    (∀ id, Cell.carries? [] ⟨TypeCode.object, .object ⟨0⟩⟩ = some id →
      0 < sharedTexts.heap.count id) ∧
    TakesOver ⟨TypeCode.object, .object ⟨0⟩⟩ .empty sharedTexts ∧
    ∃ w', Run.callBackend Backend.string.run [.object .moved ⟨1⟩] sharedTexts =
        (.ok (.object .object ⟨2⟩), w') ∧ w'.heap.Owned [⟨2⟩, ⟨0⟩, ⟨0⟩] := by
  have hlive : ∀ id, Cell.carries? [] ⟨TypeCode.object, .object ⟨0⟩⟩ = some id →
      0 < sharedTexts.heap.count id := by
    rintro id ⟨⟩
    decide
  obtain ⟨htakes, -, hcalls⟩ := returned_takenOver_iff (a := .empty) hlive
  have hb : sharedTexts.heap.Owned
      ([Value.object .moved ⟨1⟩].filterMap Value.object? ++ [⟨0⟩, ⟨0⟩]) :=
    owned_sharedTexts.perm (by decide)
  have hanswer : (Run.callBackend Backend.string.run [.object .moved ⟨1⟩] sharedTexts).1 =
      .ok (.object .object ⟨2⟩) := rfl
  have hcall : Run.callBackend Backend.string.run [.object .moved ⟨1⟩] sharedTexts =
      (.ok (.object .object ⟨2⟩), _) := Prod.ext hanswer rfl
  exact ⟨hlive, htakes.mpr rfl, _, hcall, hcalls hb (Backend.string.handsOver _ _ _) hcall⟩

/-- A text that is moved out of its slot by its only owner is destroyed, and the result leads to
it. -/
theorem movedText_not_takenOver :
    Cell.carries? [some ⟨1⟩] ⟨TypeCode.moved, .slot 0⟩ = some ⟨1⟩ ∧
    sharedTexts.heap.count ⟨1⟩ = 1 ∧
    (∃ a' w', readReturned ⟨TypeCode.moved, .slot 0⟩ ⟨[], [], [some ⟨1⟩]⟩ sharedTexts =
      ((.ok (.object .object ⟨1⟩), a'), w') ∧ w'.heap.count ⟨1⟩ = 0) ∧
    ¬ TakesOver ⟨TypeCode.moved, .slot 0⟩ ⟨[], [], [some ⟨1⟩]⟩ sharedTexts := by
  have hlive : ∀ id, Cell.carries? [some ⟨1⟩] ⟨TypeCode.moved, .slot 0⟩ = some id →
      0 < sharedTexts.heap.count id := by
    rintro id ⟨⟩
    decide
  refine ⟨rfl, rfl, ⟨_, _, rfl, rfl⟩, fun htakes => ?_⟩
  have hunmoved := (Incoming.takesOver_iff (a := ⟨[], [], [some ⟨1⟩]⟩) hlive).mp htakes
  exact nomatch hunmoved

end Boundary

end ObjectRuntime
