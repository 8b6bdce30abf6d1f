import ObjectRuntime.Proofs.Container.Converted
import ObjectRuntime.Proofs.Container.WellTyped
set_option autoImplicit false

/-!
# One object under several types

The storage of arrays and maps is untyped, and a program may refer to one object under several static
types at once.  The operations by which a program makes, converts and changes references are those
of `Views.Operation`; each of them leaves every reference such that it passes the check against its
own type (`Views.Sound`).  So what a typed array or map holds is always of its types.
-/

namespace ObjectRuntime.Views

open Relation (ReflTransGen)
open World (Balanced Proceeds)
open Run (Conserves Advances Suits Borrowed)

/-! ## Operations -/

/-- References with their static types. -/
abbrev Stack := List (RefType × Ref)

/-- What the references hold. -/
def held (stack : Stack) : List ObjId := stack.flatMap fun h => h.2.toList

@[simp] theorem held_nil : held [] = [] := rfl

@[simp] theorem held_cons (h : RefType × Ref) (stack : Stack) :
    held (h :: stack) = h.2.toList ++ held stack := rfl

@[simp] theorem held_append (stack stack' : Stack) :
    held (stack ++ stack') = held stack ++ held stack' := List.flatMap_append

variable {κ : Type}

/-- A reference is checked against a type, and taken a further time. -/
def viewAs (t : RefType) (r : Ref) : Run κ Ref := do
  let r ← Run.downcast t r
  Run.retainRef r
  return r

/-- A reference is converted to a type and not given up. -/
def passAs (t : RefType) (r : Ref) : Run κ Ref := do Run.decodeRef t (← Run.travel r false)

/-- A reference goes over to a value, which is converted to a type. -/
def convertAs (t : RefType) (r : Ref) (moved : Bool) : Run κ Ref := do
  let v ← Run.encodeRef r moved
  Run.releasing v.object?.toList (Run.decodeRef t v)

/-- All elements of an array are taken a further time. -/
def takeElements (elem : RefType) (r : Ref) : Run κ (List Ref) := do
  let elems ← Arr.items elem r
  elems.forM Run.retainRef
  return elems

/-- All keys and values of a map are taken a further time. -/
def takeEntries (key value : RefType) (r : Ref) : Run κ (List (Ref × Ref)) := do
  let entries ← Dict.items key value r
  (entries.flatMap fun e => [e.1, e.2]).forM Run.retainRef
  return entries

/-- What a program does with references: which it takes, how it makes others of them, and what is
left of them if that ends with an error.  An operation that can only fail by a broken promise
leaves nothing to go on with. -/
inductive Operation : Stack → Run κ Stack → Option Stack → Prop where
  /-- A reference to nothing. -/
  | null {t : RefType} (ht : t.Within ObjectClass.Rightful) : Operation [] (pure [(t, none)]) none
  /-- A new object, which takes over the references in its content. -/
  | object {name : String} {c : ObjectClass} {payload : Payload κ} {taken : Stack}
      (hc : c.Rightful) (hsuits : Suits (fun _ => True) c payload)
      (htaken : List.Perm payload.references (held taken)) :
      Operation taken (do return [(.named name c, some (← Run.create c payload))]) none
  /-- A new array of references of one type. -/
  | array {elem : RefType} (helem : elem.Within ObjectClass.Rightful) (elems : List Ref) :
      Operation (elems.map fun r => (elem, r))
        (do return [(.array elem, ← Arr.ofList elems)]) none
  /-- A new map of keys of one type and values of one type. -/
  | map {key value : RefType} (hkey : key.Within ObjectClass.Rightful)
      (hvalue : value.Within ObjectClass.Rightful) (pairs : List (Ref × Ref)) :
      Operation (pairs.flatMap fun e => [(key, e.1), (value, e.2)])
        (do return [(.map key value, ← Dict.ofList pairs)]) none
  | clone {t : RefType} {r : Ref} :
      Operation [(t, r)] (do Run.retainRef r; return [(t, r), (t, r)]) none
  | drop {t : RefType} {r : Ref} :
      Operation [(t, r)] (do Run.releaseAll r.toList; return []) none
  /-- A reference to any object. -/
  | upcast {t : RefType} {r : Ref} : Operation [(t, r)] (pure [(.object, r)]) none
  /-- A reference that is checked against another type, and given up if it does not pass. -/
  | downcast {t u : RefType} {r : Ref} (hu : u.Within ObjectClass.Rightful) :
      Operation [(t, r)]
        (do return [(u, ← Run.releasingOnFault r.toList (Run.downcast u r))]) (some [])
  /-- A further reference of another type to an object that passes the check. -/
  | view {t u : RefType} {id : ObjId} (hu : u.Within ObjectClass.Rightful) :
      Operation [(t, some id)] (do return [(u, ← viewAs u (some id)), (t, some id)])
        (some [(t, some id)])
  /-- An argument that is passed by reference and converted. -/
  | pass {t u : RefType} {r : Ref} (hu : u.Within ObjectClass.Rightful) :
      Operation [(t, r)] (do return [(u, ← passAs u r), (t, r)]) (some [(t, r)])
  /-- A moved argument or a result that is converted. -/
  | convert {t u : RefType} {r : Ref} (hu : u.Within ObjectClass.Rightful) (moved : Bool) :
      Operation [(t, r)] (do return [(u, ← convertAs u r moved)]) (some [])
  /-- A plain value that is converted. -/
  | decode {u : RefType} (hu : u.Within ObjectClass.Rightful) {v : Value} (hv : v.object? = none) :
      Operation [] (do return [(u, ← Run.decodeRef u v)]) (some [])
  | push {elem : RefType} {a v : Ref} :
      Operation [(.array elem, a), (elem, v)] (do return [(.array elem, ← Arr.push a v)]) none
  | set {elem : RefType} {a v : Ref} (index : Int) :
      Operation [(.array elem, a), (elem, v)] (do return [(.array elem, ← Arr.set a index v)])
        (some [(.array elem, a)])
  | insert {key value : RefType} {m k v : Ref} :
      Operation [(.map key value, m), (key, k), (value, v)]
        (do return [(.map key value, ← Dict.insert m k v)]) none
  | remove {key value : RefType} {m k : Ref} :
      Operation [(.map key value, m), (key, k)]
        (do return [(.map key value, (← Dict.remove m k).1), (key, k)]) none
  /-- A further reference to an element. -/
  | get {elem : RefType} {a : Ref} (index : Int) :
      Operation [(.array elem, a)] (do return [(elem, ← Arr.get elem a index), (.array elem, a)])
        (some [(.array elem, a)])
  /-- A further reference to the value under a key. -/
  | find {key value : RefType} {m k : Ref} :
      Operation [(.map key value, m), (key, k)]
        (do return [(value, ← Dict.get value m k), (.map key value, m), (key, k)])
        (some [(.map key value, m), (key, k)])
  /-- Further references to all elements. -/
  | elements {elem : RefType} {a : Ref} :
      Operation [(.array elem, a)]
        (do return (← takeElements elem a).map (fun r => (elem, r)) ++ [(.array elem, a)]) none
  /-- Further references to all keys and values. -/
  | entries {key value : RefType} {m : Ref} :
      Operation [(.map key value, m)]
        (do return (← takeEntries key value m).flatMap (fun e => [(key, e.1), (value, e.2)]) ++
          [(.map key value, m)]) none

/-- A program picks some of its references and does an operation with them. -/
inductive Step : World κ × Stack → World κ × Stack → Prop where
  | reorder {w : World κ} {stack stack' : Stack} (horder : List.Perm stack' stack) :
      Step (w, stack) (w, stack')
  | succeeds {w w' : World κ} {needs made rest : Stack} {x : Run κ Stack} {left : Option Stack}
      (hop : Operation needs x left) (hrun : x w = (.ok made, w')) :
      Step (w, needs ++ rest) (w', made ++ rest)
  | fails {w w' : World κ} {needs left rest : Stack} {x : Run κ Stack} {cause : Error}
      (hop : Operation needs x (some left)) (hrun : x w = (.error (.error cause), w')) :
      Step (w, needs ++ rest) (w', left ++ rest)

/-! ## References that pass -/

variable {w w' : World κ} {others spared : List ObjId} {needs stack kept : Stack} {t u : RefType}
  {r : Ref}

/-- All references are counted and pass the checks against their types, which claim only what they
may. -/
structure Sound (w : World κ) (stack : Stack) (others : List ObjId) : Prop where
  balanced : w.Balanced (fun _ => True) (held stack ++ others)
  regular : w.types.Regular
  checked : ∀ h ∈ stack, w.mismatch? h.1 h.2 = none
  within : ∀ h ∈ stack, h.1.Within ObjectClass.Rightful

namespace Sound

/-- A reference is among what is held. -/
theorem mem_held {h : RefType × Ref} (hmem : h ∈ stack) : ∀ a, h.2 = some a → a ∈ held stack := by
  intro a ha
  exact List.mem_flatMap.mpr ⟨h, hmem, by simp [ha]⟩

/-- The references of others do not matter to those that are at hand. -/
theorem perm (h : Sound w stack others) (horder : List.Perm needs stack) : Sound w needs others where
  balanced := h.balanced.perm ((horder.flatMap_right _).append_right others)
  regular := h.regular
  checked d hd := h.checked d (horder.mem_iff.mp hd)
  within d hd := h.within d (horder.mem_iff.mp hd)

/-- The first references and the rest. -/
theorem front {rest : Stack} (h : Sound w (needs ++ rest) others) :
    Sound w needs (held rest ++ others) where
  balanced := by
    have hb := h.balanced
    rwa [held_append, List.append_assoc] at hb
  regular := h.regular
  checked d hd := h.checked d (List.mem_append_left _ hd)
  within d hd := h.within d (List.mem_append_left _ hd)

/-- What has been made stands in front of the rest, which goes on passing. -/
theorem rejoin {made rest : Stack} (h : Sound w (needs ++ rest) others)
    (hproceeds : w.Proceeds (held rest ++ others) w') (h' : Sound w' made (held rest ++ others)) :
    Sound w' (made ++ rest) others where
  balanced := by
    have hb := h'.balanced
    rwa [← List.append_assoc, ← held_append] at hb
  regular := h'.regular
  checked d hd := by
    rcases List.mem_append.mp hd with hd | hd
    · exact h'.checked d hd
    · refine hproceeds.checked_of_mem h.front.balanced (fun _ hx => List.mem_append_right _ hx)
        (fun a ha => List.mem_append_left _ (mem_held hd a ha)) (h.checked d ?_)
      exact List.mem_append_right _ hd
  within d hd := by
    rcases List.mem_append.mp hd with hd | hd
    · exact h'.within d hd
    · exact h.within d (List.mem_append_right _ hd)

/-- One more reference, made of some that go and beside others that stay. -/
theorem gains {x : Run κ Ref} {made : Stack} (h : Sound w needs others)
    (hkept : ∀ d ∈ kept, d ∈ needs)
    (hx : Conserves (fun _ => True) w (held kept ++ others) Option.toList spared x)
    (hadvances : Advances ObjectClass.Rightful x) (ht : t.Within ObjectClass.Rightful)
    (hresult : ∀ {r w'}, x w = (.ok r, w') → w'.mismatch? t r = none)
    (hrun : (do return (t, ← x) :: kept) w = (.ok made, w')) :
    w.Proceeds others w' ∧ Sound w' made others := by
  obtain ⟨r, w₁, hfirst, hdone⟩ := run_bind_eq_ok.mp hrun
  cases hdone
  obtain ⟨hproceeds, hb⟩ := hx.proceeds hadvances h.regular hfirst
  refine ⟨hproceeds.of_append, ?_, hproceeds.later.regular, ?_, ?_⟩
  · rwa [held_cons, List.append_assoc]
  · refine List.forall_mem_cons.mpr ⟨hresult hfirst, fun d hd => ?_⟩
    refine hproceeds.checked_of_mem h.balanced (fun y hy => ?_)
      (fun a ha => List.mem_append_left _ (mem_held hd a ha)) (h.checked d (hkept d hd))
    rcases List.mem_append.mp hy with hy | hy
    · obtain ⟨d, hd, hy⟩ := List.mem_flatMap.mp hy
      exact List.mem_append_left _ (List.mem_flatMap.mpr ⟨d, hkept d hd, hy⟩)
    · exact List.mem_append_right _ hy
  · exact List.forall_mem_cons.mpr ⟨ht, fun d hd => h.within d (hkept d hd)⟩

/-- What stays when nothing more has come of an operation. -/
theorem stays {α : Type} {gives : α → List ObjId} {x : Run κ α} {fault : Fault}
    (h : Sound w needs others) (hkept : ∀ d ∈ kept, d ∈ needs)
    (hx : Conserves (fun _ => True) w (held kept ++ others) gives [] x)
    (hadvances : Advances ObjectClass.Rightful x) (hrun : x w = (.error fault, w')) :
    w.Proceeds others w' ∧ Sound w' kept others := by
  obtain ⟨hproceeds, hb⟩ := hx.proceeds_error hadvances h.regular hrun
  refine ⟨hproceeds.of_append, hb, hproceeds.later.regular, fun d hd => ?_,
    fun d hd => h.within d (hkept d hd)⟩
  refine hproceeds.checked_of_mem h.balanced (fun y hy => ?_)
    (fun a ha => List.mem_append_left _ (mem_held hd a ha)) (h.checked d (hkept d hd))
  rcases List.mem_append.mp hy with hy | hy
  · obtain ⟨d, hd, hy⟩ := List.mem_flatMap.mp hy
    exact List.mem_append_left _ (List.mem_flatMap.mpr ⟨d, hkept d hd, hy⟩)
  · exact List.mem_append_right _ hy

end Sound

/-- What comes of the operation passes, whether it succeeds or ends with an error, and others find
everything as it was. -/
structure Keeps (w : World κ) (others : List ObjId) (x : Run κ Stack) (left : Option Stack) :
    Prop where
  done : ∀ {made w'}, x w = (.ok made, w') → w.Proceeds others w' ∧ Sound w' made others
  failed : ∀ {stack cause w'}, left = some stack → x w = (.error (.error cause), w') →
    w.Proceeds others w' ∧ Sound w' stack others

/-- An operation whose one result is a reference fails where the reference cannot be had. -/
theorem error_of_return {x : Run κ Ref} {fault : Fault}
    (hrun : (do return (t, ← x) :: kept) w = (.error fault, w')) : x w = (.error fault, w') := by
  rcases hx : x w with ⟨fault' | r, w₁⟩
  · rw [run_bind_of_error hx] at hrun
    cases hrun
    rfl
  · rw [run_bind_of_ok hx] at hrun
    cases hrun

/-- An operation that gives up some references for another and may fail. -/
theorem Sound.keeps {x : Run κ Ref} (h : Sound w needs others) (hkept : ∀ d ∈ kept, d ∈ needs)
    (hx : Conserves (fun _ => True) w (held kept ++ others) Option.toList [] x)
    (hadvances : Advances ObjectClass.Rightful x) (ht : t.Within ObjectClass.Rightful)
    (hresult : ∀ {r w'}, x w = (.ok r, w') → w'.mismatch? t r = none) :
    Keeps w others (do return (t, ← x) :: kept) (some kept) where
  done := h.gains hkept hx hadvances ht hresult
  failed := by
    intro stack cause w' hleft hrun
    cases hleft
    exact h.stays hkept hx hadvances (error_of_return hrun)

/-- An operation that gives up some references for another. -/
theorem Sound.makes {x : Run κ Ref} (h : Sound w needs others) (hkept : ∀ d ∈ kept, d ∈ needs)
    (hx : Conserves (fun _ => True) w (held kept ++ others) Option.toList spared x)
    (hadvances : Advances ObjectClass.Rightful x) (ht : t.Within ObjectClass.Rightful)
    (hresult : ∀ {r w'}, x w = (.ok r, w') → w'.mismatch? t r = none) :
    Keeps w others (do return (t, ← x) :: kept) none where
  done := h.gains hkept hx hadvances ht hresult
  failed hleft := nomatch hleft

end ObjectRuntime.Views
