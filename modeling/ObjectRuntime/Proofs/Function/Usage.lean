import ObjectRuntime.Proofs.Container.Array
import ObjectRuntime.Proofs.Container.Box
import ObjectRuntime.Proofs.Container.Map
import ObjectRuntime.Proofs.Function.Calls
import ObjectRuntime.Proofs.Reflection.Making
set_option autoImplicit false

/-!
# Programs that use objects

A program holds references, one for each of its handles and values, and does one operation after
another with them (`Usage.Steps`).  Each operation conserves references, so at any time the count of
an object is the number of references to it, whatever has been shared, copied, stored, called or has
failed before.  No operation makes a cycle, so nothing is left when the program holds nothing.
-/

namespace ObjectRuntime

open Relation (ReflTransGen TransGen)
open Run (Conserves Borrowed entryReferences)
open World (Balanced Since)

namespace Usage

/-- What a program does with its handles and values. -/
inductive Operation (ε : Type) where
  /-- Makes an object that refers to nothing. -/
  | create (c : ObjectClass) (payload : Payload (FunctionCode ε))
  | createFunction (code : ε) (finalizer : Option Hook)
  | createArray (elems : List Ref)
  | createMap (pairs : List (Ref × Ref))
  | createNode (typeKey : String) (given : List (String × Value))
  /-- Takes a further reference, through a handle or through what a handle shows. -/
  | clone (id : ObjId)
  | drop (id : ObjId)
  /-- Gives a handle away as an address and takes it back. -/
  | throughAddress (id : ObjId)
  /-- Moves a handle or another member of a type into a value. -/
  | intoValue (t : ValueType) (x : t.Carrier)
  /-- Converts a value, which stays. -/
  | ofValue (t : ValueType) (v : Value)
  | arrayPush (r value : Ref)
  | arraySet (r : Ref) (index : Int) (value : Ref)
  | arrayGet (elem : RefType) (r : Ref) (index : Int)
  | mapInsert (r key value : Ref)
  | mapRemove (r key : Ref)
  | mapGet (value : RefType) (r key : Ref)
  | boxSet (r : Ref) (c : BoxContent)
  | nodeAttr (r : Ref) (key : String)
  | call (f : Ref) (args : List Value)

namespace Operation

variable {ε : Type}

/-- The references that the program gives to the operation. -/
def takes : Operation ε → List ObjId
  | .createArray elems => elems.flatMap Option.toList
  | .createMap pairs => pairs.flatMap entryReferences
  | .drop id | .throughAddress id => [id]
  | .intoValue t x => t.references x
  | .arrayPush r value | .arraySet r _ value => r.toList ++ value.toList
  | .mapInsert r key value => r.toList ++ (key.toList ++ value.toList)
  | .mapRemove r _ | .boxSet r _ => r.toList
  | .create .. | .createFunction .. | .createNode .. | .clone _ | .ofValue .. | .arrayGet ..
  | .mapGet .. | .nodeAttr .. | .call .. => []

/-- The references that the program has again if the operation fails. -/
def keeps : Operation ε → List ObjId
  | .arrayPush r _ | .arraySet r _ _ | .mapInsert r _ _ | .mapRemove r _ | .boxSet r _ => r.toList
  | _ => []

/-- Does the operation and tells the references that the program gets. -/
def run [Callable ε] : Operation ε → Run (FunctionCode ε) (List ObjId)
  | .create c payload => ([·]) <$> Run.create c payload
  | .createFunction code finalizer => ([·]) <$> Function.make (.program code) finalizer
  | .createArray elems => Option.toList <$> Arr.ofList elems
  | .createMap pairs => Option.toList <$> Dict.ofList pairs
  | .createNode typeKey given => Option.toList <$> createObject typeKey given
  | .clone id => do
    Run.retain id
    return [id]
  | .drop id => do
    Run.release id
    return []
  | .throughAddress id => return [id]
  | .intoValue t x => (·.object?.toList) <$> Run.encode t x
  | .ofValue t v => t.references <$> Run.decode t v
  | .arrayPush r value => Option.toList <$> Arr.push r value
  | .arraySet r index value => Option.toList <$> Arr.set r index value
  | .arrayGet elem r index => Option.toList <$> Arr.get elem r index
  | .mapInsert r key value => Option.toList <$> Dict.insert r key value
  | .mapRemove r key => (·.1.toList) <$> Dict.remove r key
  | .mapGet value r key => Option.toList <$> Dict.get value r key
  | .boxSet r c => Option.toList <$> Box.setValue r c
  | .nodeAttr r key => (·.object?.toList) <$> Reflection.attr r key
  | .call f args => (·.object?.toList) <$> Function.invoke f args

/-- What the operation borrows is reached through what the program still holds, and the handles are
of the types that the operation is for. -/
def Ready (w : World (FunctionCode ε)) (rest : List ObjId) : Operation ε → Prop
  | .create c payload => payload.references = [] ∧ Run.Suits Function.IsProgram c payload
  | .createNode _ given => ∀ e ∈ given, Borrowed w rest e.2
  | .clone id => w.heap.Reachable rest id
  | .ofValue _ v => Borrowed w rest v
  | .arrayPush r _ | .arraySet r _ _ => w.IsArray r
  | .mapInsert r _ _ => w.IsMap r
  | .mapRemove r key => w.IsMap r ∧ ∀ id, key = some id → w.heap.Reachable rest id
  | .boxSet r _ => w.IsBox r
  | .arrayGet _ r _ | .mapGet _ r _ | .nodeAttr r _ => ∀ id, r = some id → w.heap.Reachable rest id
  | .call f args => (∀ id, f = some id → w.heap.Reachable rest id) ∧ ∀ v ∈ args, Borrowed w rest v
  | .createFunction .. | .createArray _ | .createMap _ | .drop _ | .throughAddress _
  | .intoValue .. => True

variable [Callable ε] {w : World (FunctionCode ε)} {rest : List ObjId} {op : Operation ε}

/-- Every operation conserves references. -/
theorem conserves_run (hcode : Function.CodeConserving ε)
    (hb : w.Balanced Function.IsProgram (op.takes ++ rest)) (hready : op.Ready w rest) :
    Conserves Function.IsProgram w rest id op.keeps op.run := by
  cases op with
  | create c payload =>
      obtain ⟨hreferences, hsuits⟩ := hready
      refine (Run.conserves_create [] ?_ hsuits).map fun _ => rfl
      rw [hreferences]
      exact hb
  | createFunction code finalizer =>
      exact (Function.conserves_make hb ⟨code, rfl⟩).map fun _ => rfl
  | createArray elems => exact (Arr.conserves_ofList hb).map fun _ => rfl
  | createMap pairs => exact (Dict.conserves_ofList hb).map fun _ => rfl
  | createNode typeKey given => exact (conserves_createObject hb hready).map fun _ => rfl
  | clone id =>
      exact (Run.conserves_retain [] [] hb hready).bind fun _ _ _ _ hb₁ => Run.conserves_pure hb₁
  | drop id =>
      exact (Run.conserves_release [] [] hb).bind fun _ _ _ _ hb₁ => Run.conserves_pure hb₁
  | throughAddress id => exact Run.conserves_pure hb
  | intoValue t x => exact (Run.conserves_encode t x hb).map fun _ => rfl
  | ofValue t v => exact (Run.conserves_decode t hb hready).map fun _ => rfl
  | arrayPush r value =>
      rw [takes, List.append_assoc] at hb
      exact (Arr.conserves_push hb hready).map fun _ => rfl
  | arraySet r index value =>
      rw [takes, List.append_assoc] at hb
      exact (Arr.conserves_set hb hready).map fun _ => rfl
  | arrayGet elem r index => exact (Arr.conserves_get hb hready).map fun _ => rfl
  | mapInsert r key value =>
      rw [takes, List.append_assoc] at hb
      exact (Dict.conserves_insert hb hready).map fun _ => rfl
  | mapRemove r key => exact (Dict.conserves_remove hb hready.1 hready.2).map fun _ => rfl
  | mapGet value r key => exact (Dict.conserves_get hb hready).map fun _ => rfl
  | boxSet r c => exact (Box.conserves_setValue hb hready).map fun _ => rfl
  | nodeAttr r key => exact (Reflection.conserves_attr hb hready).map fun _ => rfl
  | call f args =>
      exact (Function.conserving_invoke hcode hb hready.1 hready.2).map fun _ => rfl

end Operation

variable {ε : Type} [Callable ε]

/-! ## Runs -/

/-- A world and the references that the program's handles and values hold. -/
structure State (ε : Type) where
  world : World (FunctionCode ε)
  held : List ObjId

/-- One operation, with some of the references that are held. -/
inductive Step : State ε → State ε → Prop where
  | done (op : Operation ε) (rest : List ObjId) {w w' : World (FunctionCode ε)}
      {held given : List ObjId}
      (takes : List.Perm held (op.takes ++ rest)) (ready : op.Ready w rest)
      (run : op.run w = (.ok given, w')) : Step ⟨w, held⟩ ⟨w', given ++ rest⟩
  | failed (op : Operation ε) (rest : List ObjId) {w w' : World (FunctionCode ε)}
      {held : List ObjId} {fault : Fault}
      (takes : List.Perm held (op.takes ++ rest)) (ready : op.Ready w rest)
      (run : op.run w = (.error fault, w')) : Step ⟨w, held⟩ ⟨w', op.keeps ++ rest⟩

/-- Any number of operations. -/
abbrev Steps : State ε → State ε → Prop := ReflTransGen Step

/-- The account of a heap that was empty once. -/
structure Accounted {κ : Type} (h : Heap κ) (held : List ObjId) : Prop where
  /-- The count of an object is the number of references to it, those held outside and those in the
  contents of objects. -/
  counted : ∀ id, h.count id = held.count id + h.mentions 0 id
  /-- An object is there exactly as long as there is a reference to it. -/
  alive : ∀ id, (∃ o, h.get? id = some o) ↔ 0 < held.count id + h.mentions 0 id
  /-- No object holds itself, directly or through others. -/
  acyclic : ∀ id, ¬ TransGen h.Refers id id
  /-- On the way objects were destroyed in place of their last references only. -/
  history : Heap.Becomes .empty h
  /-- Every object that has been made and is no longer there was destroyed once. -/
  ended : ∃ deaths, Heap.Ended .empty h deaths
  /-- Nothing is left when nothing is held. -/
  nothing : held = [] → ∀ id, h.get? id = none

/-- An operation keeps all references counted. -/
theorem Step.balanced {s s' : State ε} (hcode : Function.CodeConserving ε) (hstep : Step s s')
    (hb : s.world.Balanced Function.IsProgram s.held) :
    Heap.Becomes s.world.heap s'.world.heap ∧ s'.world.Balanced Function.IsProgram s'.held := by
  cases hstep with
  | done op rest takes ready run =>
      obtain ⟨hsince, hb'⟩ := (Operation.conserves_run hcode (hb.perm takes.symm) ready).ok _ _ run
      exact ⟨hsince.becomes, hb'⟩
  | failed op rest takes ready run =>
      obtain ⟨hsince, hb'⟩ :=
        (Operation.conserves_run hcode (hb.perm takes.symm) ready).error _ _ run
      exact ⟨hsince.becomes, hb'⟩

/-- So does any number of operations. -/
theorem Steps.balanced {s s' : State ε} (hcode : Function.CodeConserving ε) (hsteps : Steps s s')
    (hb : s.world.Balanced Function.IsProgram s.held) :
    Heap.Becomes s.world.heap s'.world.heap ∧ s'.world.Balanced Function.IsProgram s'.held := by
  induction hsteps with
  | refl => exact ⟨.refl, hb⟩
  | tail _ hstep ih =>
      obtain ⟨hbecomes, hb⟩ := ih
      obtain ⟨hbecomes', hb'⟩ := hstep.balanced hcode hb
      exact ⟨hbecomes.trans hbecomes', hb'⟩

/-- A program with two functions: a typed one that gives back its argument, and one that calls its
first argument with the others. -/
inductive Relay where
  | echo | apply

instance : Callable Relay where
  call invoke code args :=
    match code with
    | .echo => Run.callTyped "echo" ⟨[.ref .object], .ref .object, false⟩
      (fun xs => do
        Run.retainRef xs.1
        return xs.1) args
    | .apply => invoke (args.head?.bind Value.object?) args.tail

theorem Relay.codeConserving : Function.CodeConserving Relay := by
  intro invoke hinvoke w others args code hb hargs
  cases code with
  | echo =>
      refine Run.conserves_callTyped hb hargs fun xs w₁ _ hb₁ => ?_
      have hheld : ∀ id, xs.1 = some id → w₁.heap.Reachable
          (Args.references [.ref .object] xs ++ others) id := fun id hid =>
        .of_mem (List.mem_append_left _ (List.mem_append_left _ (Option.mem_toList.mpr hid)))
      exact (Run.conserves_retainRef [] [] hb₁ hheld).bind fun _ _ _ _ hb₂ =>
        Run.conserves_pure (by simpa [ValueType.references] using hb₂)
  | apply =>
      refine hinvoke hb (fun id hid => ?_) fun v hv => hargs v (List.mem_of_mem_tail hv)
      obtain ⟨v, hv, hid⟩ := Option.bind_eq_some_iff.mp hid
      exact hargs v (List.mem_of_mem_head? hv) id hid

/-- The step of an operation that answers. -/
theorem Step.of_answer {w : World (FunctionCode ε)} {held given : List ObjId} (op : Operation ε)
    (rest : List ObjId) (takes : List.Perm held (op.takes ++ rest)) (ready : op.Ready w rest)
    (answer : (op.run w).1.toOption = some given) :
    Step ⟨w, held⟩ ⟨(op.run w).2, given ++ rest⟩ := by
  refine .done op rest takes ready (Prod.ext ?_ rfl)
  cases h : (op.run w).1 with
  | ok value => simpa [h, Except.toOption] using answer
  | error e => simp [h, Except.toOption] at answer

end Usage

end ObjectRuntime
