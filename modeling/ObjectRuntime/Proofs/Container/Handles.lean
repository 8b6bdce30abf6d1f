import ObjectRuntime.Container.Array
import ObjectRuntime.Container.Map
import ObjectRuntime.Proofs.Container.PlainValue
set_option autoImplicit false

/-!
# Programs that use containers

A program holds handles to strings, boxes, arrays and maps and does one operation after another with
them.  `Operation.run` does them with objects that are counted, shared and copied when they change;
`Operation.eval` does the same with values that share nothing, so that a change of one handle cannot
be seen through another.
-/

namespace ObjectRuntime.Handles

/-! ## Handles -/

/-- The handles of a program with their types, the one to be used next first. -/
abbrev Stack (ρ : Type) := List (HandleType × ρ)

namespace Stack

variable {ρ σ : Type}

/-- The first handles, which have to be of one type, and the others. -/
def elements? (t : HandleType) : Nat → Stack ρ → Option (List ρ × Stack ρ)
  | 0, stack => some ([], stack)
  | _ + 1, [] => none
  | n + 1, h :: stack =>
    if h.1 = t then (elements? t n stack).map fun p => (h.2 :: p.1, p.2) else none

/-- The first handles, keys and values in turn, and the others. -/
def pairs? (key value : HandleType) : Nat → Stack ρ → Option (List (ρ × ρ) × Stack ρ)
  | 0, stack => some ([], stack)
  | n + 1, k :: v :: stack =>
    if k.1 = key ∧ v.1 = value then
      (pairs? key value n stack).map fun p => ((k.2, v.2) :: p.1, p.2)
    else none
  | _ + 1, _ => none

/-- The same handles to other things. -/
def image (f : ρ → σ) (stack : Stack ρ) : Stack σ := stack.map fun h => (h.1, f h.2)

theorem elements?_image (f : ρ → σ) (t : HandleType) (n : Nat) (stack : Stack ρ) :
    elements? t n (image f stack) =
      (elements? t n stack).map fun p => (p.1.map f, image f p.2) := by
  induction n generalizing stack with
  | zero => rfl
  | succ n ih =>
      cases stack with
      | nil => rfl
      | cons h stack =>
          have hstack : image f (h :: stack) = (h.1, f h.2) :: image f stack := rfl
          rw [hstack, elements?, elements?, ih]
          split
          · rw [Option.map_map, Option.map_map]
            rfl
          · rfl

/-- The elements are those of the first handles. -/
theorem eq_of_elements? {t : HandleType} {n : Nat} {stack rest : Stack ρ} {elems : List ρ}
    (h : elements? t n stack = some (elems, rest)) :
    stack = elems.map (fun r => (t, r)) ++ rest := by
  induction n generalizing stack elems with
  | zero =>
      cases h
      rfl
  | succ n ih =>
      cases stack with
      | nil => cases h
      | cons d stack =>
          rw [elements?] at h
          split at h
          · rename_i htype
            obtain ⟨p, hp, hdone⟩ := Option.map_eq_some_iff.mp h
            cases hdone
            rw [ih hp, List.map_cons, List.cons_append, ← htype]
          · cases h

theorem pairs?_image (f : ρ → σ) (key value : HandleType) (n : Nat) (stack : Stack ρ) :
    pairs? key value n (image f stack) =
      (pairs? key value n stack).map fun p => (p.1.map (Prod.map f f), image f p.2) := by
  induction n generalizing stack with
  | zero => rfl
  | succ n ih =>
      rcases stack with _ | ⟨k, _ | ⟨v, stack⟩⟩
      · rfl
      · rfl
      · have hstack : image f (k :: v :: stack) =
            (k.1, f k.2) :: (v.1, f v.2) :: image f stack := rfl
        rw [hstack, pairs?, pairs?, ih]
        split
        · rw [Option.map_map, Option.map_map]
          rfl
        · rfl

theorem eq_of_pairs? {key value : HandleType} {n : Nat} {stack rest : Stack ρ}
    {pairs : List (ρ × ρ)} (h : pairs? key value n stack = some (pairs, rest)) :
    stack = pairs.flatMap (fun p => [(key, p.1), (value, p.2)]) ++ rest := by
  induction n generalizing stack pairs with
  | zero =>
      cases h
      rfl
  | succ n ih =>
      rcases stack with _ | ⟨k, _ | ⟨v, stack⟩⟩
      · cases h
      · cases h
      · rw [pairs?] at h
        split at h
        · rename_i htypes
          obtain ⟨p, hp, hdone⟩ := Option.map_eq_some_iff.mp h
          cases hdone
          rw [ih hp, List.flatMap_cons, ← htypes.1, ← htypes.2]
          rfl
        · cases h

end Stack

/-! ## Operations -/

/-- What a program does with its handles.  An operation takes the handles that it uses from the front
and leaves those that it makes or has only borrowed there. -/
inductive Operation where
  /-- A new string. -/
  | text (s : String)
  /-- A new box. -/
  | box (c : BoxContent)
  /-- A handle to nothing. -/
  | null (t : HandleType)
  /-- A new array of the first handles, which are moved into it. -/
  | array (elem : HandleType) (size : Nat)
  /-- A new map of the first handles, keys and values in turn. -/
  | map (key value : HandleType) (size : Nat)
  | clone
  | drop
  /-- Brings a handle to the front. -/
  | bring (position : Nat)
  /-- Turns the first handle into one to any object. -/
  | upcast
  /-- Turns the first handle into one of a type.  If it does not refer to such an object it is lost. -/
  | downcast (t : HandleType)
  /-- Moves the first handle to the end of the array behind it. -/
  | push
  /-- Moves the first handle into the array behind it in place of an element. -/
  | set (index : Int)
  /-- Moves the first handle into the map behind the second handle, under that as its key. -/
  | insert
  /-- Removes the entry of the map behind the first handle with that as its key. -/
  | remove
  /-- Changes the content of the box. -/
  | setValue (c : BoxContent)
  /-- Takes a further handle to an element of the array. -/
  | get (index : Int)
  /-- Takes a further handle to the value in the map behind the first handle with that as its key. -/
  | find
  /-- Takes a further handle to all that is in the array or map, in order. -/
  | iterate
  /-- The number of elements or entries. -/
  | len
  /-- Whether the map behind the first handle has it as a key. -/
  | contains
  /-- The content of the box. -/
  | unbox
  /-- The content of the string. -/
  | read

/-- What an operation tells.  An operation for which there are no handles of the right types is
left out. -/
inductive Output where
  | done
  | leftOut
  | count (n : Nat)
  | flag (b : Bool)
  | content (c : Option BoxContent)
  | text (s : Option String)
  | failed (cause : Error)

/-! ### With values -/

/-- The element at an index. -/
def at? {ρ : Type} (elems : List ρ) (index : Int) : Option ρ :=
  if 0 ≤ index then elems[index.toNat]? else none

/-- What is told of an index at which there is no element. -/
def outOfBounds {ρ : Type} (elems : List ρ) (index : Int) : Output :=
  .failed (.indexOutOfBounds "Array" index elems.length)

/-- Does an operation with values.  What it makes or changes gets the stamp. -/
def Operation.eval (stamp : Nat) (op : Operation) (stack : Stack PlainValue) :
    Output × Stack PlainValue :=
  match op with
  | .text s => (.done, (.string, .text stamp s) :: stack)
  | .box c => (.done, (.box (.ofContent c), .box stamp c) :: stack)
  | .null t => (.done, (t, .null) :: stack)
  | .array elem size =>
    match stack.elements? elem size with
    | some (elems, rest) => (.done, (.array elem, .array stamp elems) :: rest)
    | none => (.leftOut, stack)
  | .map key value size =>
    match stack.pairs? key value size with
    | some (pairs, rest) => (.done, (.map key value, .map stamp (Entries.ofPairs pairs)) :: rest)
    | none => (.leftOut, stack)
  | .clone =>
    match stack with
    | h :: rest => (.done, h :: h :: rest)
    | [] => (.leftOut, stack)
  | .drop =>
    match stack with
    | _ :: rest => (.done, rest)
    | [] => (.leftOut, stack)
  | .bring position =>
    match stack[position]? with
    | some h => (.done, h :: stack.eraseIdx position)
    | none => (.leftOut, stack)
  | .upcast =>
    match stack with
    | (_, v) :: rest => (.done, (.object, v) :: rest)
    | [] => (.leftOut, stack)
  | .downcast t =>
    match stack with
    | (_, v) :: rest =>
      match t.mismatch? v with
      | none => (.done, (t, v) :: rest)
      | some m => (.failed (.typeMismatch t.ref.typeName m), rest)
    | [] => (.leftOut, stack)
  | .push =>
    match stack with
    | (t, v) :: (.array elem, a) :: rest =>
      if t = elem then (.done, (.array elem, .array stamp (a.elements ++ [v])) :: rest)
      else (.leftOut, stack)
    | _ => (.leftOut, stack)
  | .set index =>
    match stack with
    | (t, v) :: (.array elem, a) :: rest =>
      if t = elem then
        if (at? a.elements index).isSome then
          (.done, (.array elem, .array stamp (a.elements.set index.toNat v)) :: rest)
        else (outOfBounds a.elements index, (.array elem, a) :: rest)
      else (.leftOut, stack)
    | _ => (.leftOut, stack)
  | .insert =>
    match stack with
    | (u, v) :: (t, k) :: (.map key value, m) :: rest =>
      if t = key ∧ u = value then
        (.done, (.map key value, .map stamp (Entries.put m.entries k v)) :: rest)
      else (.leftOut, stack)
    | _ => (.leftOut, stack)
  | .remove =>
    match stack with
    | (t, k) :: (.map key value, m) :: rest =>
      if t = key then
        if Entries.has m.entries k then
          (.flag true, (t, k) :: (.map key value, .map stamp (Entries.erase m.entries k)) :: rest)
        else (.flag false, stack)
      else (.leftOut, stack)
    | _ => (.leftOut, stack)
  | .setValue c =>
    match stack with
    | (.box kind, _) :: rest =>
      if kind = .ofContent c then (.done, (.box kind, .box stamp c) :: rest)
      else (.leftOut, stack)
    | _ => (.leftOut, stack)
  | .get index =>
    match stack with
    | (.array elem, a) :: _ =>
      match at? a.elements index with
      | some v => (.done, (elem, v) :: stack)
      | none => (outOfBounds a.elements index, stack)
    | _ => (.leftOut, stack)
  | .find =>
    match stack with
    | (t, k) :: (.map key value, m) :: _ =>
      if t = key then
        match Entries.valueAt? m.entries k with
        | some v => (.done, (value, v) :: stack)
        | none => (.failed (.keyMissing k.keyText), stack)
      else (.leftOut, stack)
    | _ => (.leftOut, stack)
  | .iterate =>
    match stack with
    | (.array elem, a) :: _ => (.done, a.elements.map (fun v => (elem, v)) ++ stack)
    | (.map key value, m) :: _ =>
      (.done, m.entries.flatMap (fun e => [(key, e.1), (value, e.2)]) ++ stack)
    | _ => (.leftOut, stack)
  | .len =>
    match stack with
    | (.array _, a) :: _ => (.count a.elements.length, stack)
    | (.map _ _, m) :: _ => (.count m.entries.length, stack)
    | _ => (.leftOut, stack)
  | .contains =>
    match stack with
    | (t, k) :: (.map key _, m) :: _ =>
      if t = key then (.flag (Entries.has m.entries k), stack) else (.leftOut, stack)
    | _ => (.leftOut, stack)
  | .unbox =>
    match stack with
    | (.box _, b) :: _ => (.content b.content?, stack)
    | _ => (.leftOut, stack)
  | .read =>
    match stack with
    | (.string, s) :: _ => (.text s.text?, stack)
    | _ => (.leftOut, stack)

/-- Does operations one after another, the first with the stamp, and tells what each tells. -/
def evalAll (stamp : Nat) : List Operation → Stack PlainValue → List Output
  | [], _ => []
  | op :: ops, stack =>
    (op.eval stamp stack).1 :: evalAll (stamp + 1) ops (op.eval stamp stack).2

/-- A position is found if an element is. -/
theorem position_of_at? {ρ : Type} {elems : List ρ} {index : Int} {v : ρ}
    (h : at? elems index = some v) :
    Arr.position elems.length index = .ok index.toNat ∧ elems[index.toNat]? = some v := by
  rw [at?] at h
  split at h
  · rename_i hpos
    have hlt := (List.getElem?_eq_some_iff.mp h).1
    exact ⟨if_pos ⟨hpos, by omega⟩, h⟩
  · cases h

theorem position_of_not_at? {ρ : Type} {elems : List ρ} {index : Int}
    (h : at? elems index = none) :
    Arr.position elems.length index =
      .error (.indexOutOfBounds "Array" index elems.length) := by
  rw [at?] at h
  refine if_neg fun hbounds => ?_
  rw [if_pos hbounds.1, List.getElem?_eq_none_iff] at h
  omega

/-! ### With objects -/

/-- Takes references of the caller's own to what has been read. -/
def keeping {κ : Type} (rs : List Ref) : Run κ Unit := rs.forM Run.retainRef

/-- Does an operation with objects. -/
def Operation.run {κ : Type} (op : Operation) (stack : Stack Ref) :
    Run κ (Output × Stack Ref) :=
  match op with
  | .text s => do return (.done, (.string, some (← Run.create .string (.text s))) :: stack)
  | .box c => do return (.done, (.box (.ofContent c), some (← Box.make c)) :: stack)
  | .null t => return (.done, (t, none) :: stack)
  | .array elem size =>
    match stack.elements? elem size with
    | some (elems, rest) => do return (.done, (.array elem, ← Arr.ofList elems) :: rest)
    | none => return (.leftOut, stack)
  | .map key value size =>
    match stack.pairs? key value size with
    | some (pairs, rest) => do return (.done, (.map key value, ← Dict.ofList pairs) :: rest)
    | none => return (.leftOut, stack)
  | .clone =>
    match stack with
    | h :: rest => do
      Run.retainRef h.2
      return (.done, h :: h :: rest)
    | [] => return (.leftOut, stack)
  | .drop =>
    match stack with
    | h :: rest => do
      Run.releaseAll h.2.toList
      return (.done, rest)
    | [] => return (.leftOut, stack)
  | .bring position =>
    match stack[position]? with
    | some h => return (.done, h :: stack.eraseIdx position)
    | none => return (.leftOut, stack)
  | .upcast =>
    match stack with
    | (_, r) :: rest => return (.done, (.object, r) :: rest)
    | [] => return (.leftOut, stack)
  | .downcast t =>
    match stack with
    | (_, r) :: rest => do
      match ← Run.attempt (Run.releasingOnFault r.toList (Run.downcast t.ref r)) with
      | .ok r => return (.done, (t, r) :: rest)
      | .error cause => return (.failed cause, rest)
    | [] => return (.leftOut, stack)
  | .push =>
    match stack with
    | (t, v) :: (.array elem, a) :: rest =>
      if t = elem then do return (.done, (.array elem, ← Arr.push a v) :: rest)
      else return (.leftOut, stack)
    | _ => return (.leftOut, stack)
  | .set index =>
    match stack with
    | (t, v) :: (.array elem, a) :: rest =>
      if t = elem then do
        match ← Run.attempt (Arr.set a index v) with
        | .ok changed => return (.done, (.array elem, changed) :: rest)
        | .error cause => return (.failed cause, (.array elem, a) :: rest)
      else return (.leftOut, stack)
    | _ => return (.leftOut, stack)
  | .insert =>
    match stack with
    | (u, v) :: (t, k) :: (.map key value, m) :: rest =>
      if t = key ∧ u = value then do
        return (.done, (.map key value, ← Dict.insert m k v) :: rest)
      else return (.leftOut, stack)
    | _ => return (.leftOut, stack)
  | .remove =>
    match stack with
    | (t, k) :: (.map key value, m) :: rest =>
      if t = key then do
        let changed ← Dict.remove m k
        return (.flag changed.2, (t, k) :: (.map key value, changed.1) :: rest)
      else return (.leftOut, stack)
    | _ => return (.leftOut, stack)
  | .setValue c =>
    match stack with
    | (.box kind, b) :: rest =>
      if kind = .ofContent c then do return (.done, (.box kind, ← Box.setValue b c) :: rest)
      else return (.leftOut, stack)
    | _ => return (.leftOut, stack)
  | .get index =>
    match stack with
    | (.array elem, a) :: _ => do
      match ← Run.attempt (Arr.get elem.ref a index) with
      | .ok r => return (.done, (elem, r) :: stack)
      | .error cause => return (.failed cause, stack)
    | _ => return (.leftOut, stack)
  | .find =>
    match stack with
    | (t, k) :: (.map key value, m) :: _ =>
      if t = key then do
        match ← Run.attempt (Dict.get value.ref m k) with
        | .ok r => return (.done, (value, r) :: stack)
        | .error cause => return (.failed cause, stack)
      else return (.leftOut, stack)
    | _ => return (.leftOut, stack)
  | .iterate =>
    match stack with
    | (.array elem, a) :: _ => do
      let elems ← Arr.items elem.ref a
      keeping elems
      return (.done, elems.map (fun r => (elem, r)) ++ stack)
    | (.map key value, m) :: _ => do
      let entries ← Dict.items key.ref value.ref m
      keeping (entries.flatMap fun e => [e.1, e.2])
      return (.done, entries.flatMap (fun e => [(key, e.1), (value, e.2)]) ++ stack)
    | _ => return (.leftOut, stack)
  | .len =>
    match stack with
    | (.array _, a) :: _ => do return (.count ((← MonadState.get).elements a).length, stack)
    | (.map _ _, m) :: _ => do return (.count ((← MonadState.get).entries m).length, stack)
    | _ => return (.leftOut, stack)
  | .contains =>
    match stack with
    | (t, k) :: (.map key _, m) :: _ =>
      if t = key then do return (.flag (← Dict.has m k), stack) else return (.leftOut, stack)
    | _ => return (.leftOut, stack)
  | .unbox =>
    match stack with
    | (.box kind, b) :: _ => do
      return (.content (Box.content? (← MonadState.get) b kind.like), stack)
    | _ => return (.leftOut, stack)
  | .read =>
    match stack with
    | (.string, s) :: _ => do return (.text (s.bind (← MonadState.get).text?), stack)
    | _ => return (.leftOut, stack)

/-- Does operations one after another and tells what each tells. -/
def runAll {κ : Type} : List Operation → Stack Ref → Run κ (List Output)
  | [], _ => return []
  | op :: ops, stack => do
    let answer ← op.run stack
    return answer.1 :: (← runAll ops answer.2)

end ObjectRuntime.Handles
