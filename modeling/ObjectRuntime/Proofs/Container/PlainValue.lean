import ObjectRuntime.Container.Box
import ObjectRuntime.Object.Class
import ObjectRuntime.Text.Address
import ObjectRuntime.Proofs.Lists
set_option autoImplicit false

/-!
# Values that share nothing

What a program sees of strings, boxes, arrays and maps, without the objects that they are kept in: an
array is a list, a map an ordered list of entries with distinct keys, and a box a number.

Keys that are not strings are compared by identity.  So a value carries a stamp, which tells when it
was made or last changed: a copy has the stamp of the original, and a value that changes gets a new
one.
-/

namespace ObjectRuntime.Handles

/-! ## Types -/

/-- What a box holds. -/
inductive BoxKind where
  | int | float | bool
  deriving DecidableEq, Repr

namespace BoxKind

/-- Some content of the kind. -/
def like : BoxKind → BoxContent
  | .int => .int 0
  | .float => .float ⟨0⟩
  | .bool => .bool false

/-- The kind of a content. -/
def ofContent : BoxContent → BoxKind
  | .int _ => .int
  | .float _ => .float
  | .bool _ => .bool

/-- References to boxes of the kind. -/
def ref : BoxKind → RefType
  | .int => .boxInt
  | .float => .boxFloat
  | .bool => .boxBool

end BoxKind

/-- The static type of a handle. -/
inductive HandleType where
  | object
  | string
  | box (kind : BoxKind)
  | array (elem : HandleType)
  | map (key value : HandleType)
  deriving DecidableEq, Repr

/-- The type of the handle's reference. -/
def HandleType.ref : HandleType → RefType
  | .object => .object
  | .string => .string
  | .box kind => kind.ref
  | .array elem => .array elem.ref
  | .map key value => .map key.ref value.ref

/-- The classes of the objects to which there are handles. -/
def classes : List ObjectClass := [.string, .array, .map, .boxInt, .boxFloat, .boxBool]

theorem mem_classes_of_box (c : BoxContent) : c.cls ∈ classes := by
  cases c <;> simp only [BoxContent.cls] <;> decide

/-! ## Values without sharing -/

/-- What a handle shows. -/
inductive PlainValue where
  | null
  | text (stamp : Nat) (s : String)
  | box (stamp : Nat) (c : BoxContent)
  | array (stamp : Nat) (elems : List PlainValue)
  | map (stamp : Nat) (entries : List (PlainValue × PlainValue))

/-- What keys of maps are compared by. -/
inductive Key where
  | null
  | text (s : String)
  | stamp (n : Nat)
  deriving DecidableEq, Repr

namespace PlainValue

/-- What the value is compared by as a key. -/
def key : PlainValue → Key
  | .null => .null
  | .text _ s => .text s
  | .box stamp _ | .array stamp _ | .map stamp _ => .stamp stamp

/-- The content of a string. -/
def text? : PlainValue → Option String
  | .text _ s => some s
  | _ => none

/-- Strings are compared by their content. -/
theorem key_of_text? {v : PlainValue} {s : String} (h : v.text? = some s) : v.key = .text s := by
  cases v with
  | text stamp t =>
      cases h
      rfl
  | _ => cases h

/-- The content of a box. -/
def content? : PlainValue → Option BoxContent
  | .box _ c => some c
  | _ => none

/-- The elements of an array; nothing is an empty one. -/
def elements : PlainValue → List PlainValue
  | .array _ elems => elems
  | _ => []

/-- The entries of a map in the order of insertion; nothing is an empty one. -/
def entries : PlainValue → List (PlainValue × PlainValue)
  | .map _ entries => entries
  | _ => []

/-- The class of the object. -/
def cls : PlainValue → ObjectClass
  | .null => .root
  | .text _ _ => .string
  | .box _ c => c.cls
  | .array _ _ => .array
  | .map _ _ => .map

/-- How the value is shown as a key. -/
def keyText : PlainValue → String
  | .null => "null"
  | .text _ s => s
  | v => v.cls.key ++ AddressText.mask

end PlainValue

/-! ### Ordered maps -/

/-- The entries of a map. -/
abbrev Entries := List (PlainValue × PlainValue)

namespace Entries

/-- No two entries have the same key. -/
def Distinct (entries : Entries) : Prop := entries.Pairwise fun e e' => e.1.key ≠ e'.1.key

/-- There is an entry with the key. -/
def has (entries : Entries) (key : PlainValue) : Bool := entries.any fun e => e.1.key = key.key

/-- The value under a key. -/
def valueAt? (entries : Entries) (key : PlainValue) : Option PlainValue :=
  (entries.find? fun e => e.1.key = key.key).map (·.2)

/-- Puts a value under a key: an entry with this key keeps its place and its own key, and a new one
goes last. -/
def put (entries : Entries) (key value : PlainValue) : Entries :=
  if entries.has key then entries.map fun e => if e.1.key = key.key then (e.1, value) else e
  else entries ++ [(key, value)]

/-- Removes the entry with a key; the others keep their order. -/
def erase (entries : Entries) (key : PlainValue) : Entries :=
  entries.filter fun e => e.1.key ≠ key.key

/-- Puts one entry after another into an empty map. -/
def ofPairs (pairs : List (PlainValue × PlainValue)) : Entries :=
  pairs.foldl (fun entries e => entries.put e.1 e.2) []

variable {entries : Entries} {key value : PlainValue} {e : PlainValue × PlainValue}

@[simp] theorem has_cons (e : PlainValue × PlainValue) (entries : Entries) (key : PlainValue) :
    has (e :: entries) key = (decide (e.1.key = key.key) || has entries key) := rfl

/-- No other entry has the key of the first one. -/
theorem Distinct.has_eq_false (hd : Distinct (e :: entries)) (hkey : e.1.key = key.key) :
    has entries key = false := by
  refine List.any_eq_false.mpr fun d hd' => ?_
  have hne := (List.pairwise_cons.mp hd).1 d hd'
  simpa using fun heq => hne (hkey.trans heq.symm)

theorem map_eq_self_of_not_has (hnone : has entries key = false) (value : PlainValue) :
    (entries.map fun e => if e.1.key = key.key then (e.1, value) else e) = entries := by
  refine (List.map_congr_left fun d hd => ?_).trans entries.map_id
  have hne : ¬ d.1.key = key.key := by simpa using List.any_eq_false.mp hnone d hd
  exact if_neg hne

theorem put_cons_of_eq (hd : Distinct (e :: entries)) (hkey : e.1.key = key.key)
    (value : PlainValue) : put (e :: entries) key value = (e.1, value) :: entries := by
  rw [put, if_pos (by simp [hkey]), List.map_cons, if_pos hkey,
    map_eq_self_of_not_has (hd.has_eq_false hkey)]

theorem put_cons_of_ne (hkey : e.1.key ≠ key.key) (value : PlainValue) :
    put (e :: entries) key value = e :: put entries key value := by
  rw [put, put, has_cons, decide_eq_false hkey, Bool.false_or]
  split
  · rw [List.map_cons, if_neg hkey]
  · rfl

theorem erase_cons_of_eq (hd : Distinct (e :: entries)) (hkey : e.1.key = key.key) :
    erase (e :: entries) key = entries := by
  have hnone := List.any_eq_false.mp (hd.has_eq_false hkey)
  rw [erase, List.filter_cons_of_neg (by simp [hkey]), List.filter_eq_self]
  exact fun d hd => by simpa using hnone d hd

theorem erase_cons_of_ne (hkey : e.1.key ≠ key.key) :
    erase (e :: entries) key = e :: erase entries key := by
  rw [erase, List.filter_cons_of_pos (by simp [hkey]), erase]

/-- The keys after a value has been put under one. -/
theorem keys_put (entries : Entries) (key value : PlainValue) :
    ∀ d ∈ put entries key value, d.1.key = key.key ∨ ∃ e ∈ entries, d.1.key = e.1.key := by
  intro d hd
  rw [put] at hd
  split at hd
  · obtain ⟨e, he, rfl⟩ := List.mem_map.mp hd
    refine .inr ⟨e, he, ?_⟩
    split <;> rfl
  · rcases List.mem_append.mp hd with hd | hd
    · exact .inr ⟨d, hd, rfl⟩
    · obtain rfl := List.mem_singleton.mp hd
      exact .inl rfl

/-- Putting a value under a key keeps the keys distinct. -/
theorem Distinct.put (hd : Distinct entries) (key value : PlainValue) :
    Distinct (put entries key value) := by
  induction entries with
  | nil => exact List.pairwise_singleton _ _
  | cons e entries ih =>
      obtain ⟨hhead, hrest⟩ := List.pairwise_cons.mp hd
      by_cases hkey : e.1.key = key.key
      · rw [put_cons_of_eq hd hkey]
        exact List.pairwise_cons.mpr ⟨hhead, hrest⟩
      · rw [put_cons_of_ne hkey]
        refine List.pairwise_cons.mpr ⟨fun d hd => ?_, ih hrest⟩
        rcases keys_put entries key value d hd with heq | ⟨e', he', heq⟩
        · exact fun h => hkey (h.trans heq)
        · exact fun h => hhead e' he' (h.trans heq)

theorem Distinct.erase (hd : Distinct entries) (key : PlainValue) :
    Distinct (erase entries key) := List.Pairwise.filter _ hd

/-- What holds of all keys and values holds after a value has been put under a key. -/
theorem forall_put (p q : PlainValue → Prop) (hentries : ∀ e ∈ entries, p e.1 ∧ q e.2)
    (hkey : p key) (hvalue : q value) : ∀ e ∈ put entries key value, p e.1 ∧ q e.2 := by
  intro e he
  rw [put] at he
  split at he
  · obtain ⟨d, hd, rfl⟩ := List.mem_map.mp he
    split
    · exact ⟨(hentries d hd).1, hvalue⟩
    · exact hentries d hd
  · rcases List.mem_append.mp he with he | he
    · exact hentries e he
    · obtain rfl := List.mem_singleton.mp he
      exact ⟨hkey, hvalue⟩

/-- What holds of the keys and values of pairs holds of the map of them. -/
theorem forall_ofPairs (p q : PlainValue → Prop) {pairs : List (PlainValue × PlainValue)}
    (hpairs : ∀ e ∈ pairs, p e.1 ∧ q e.2) : ∀ e ∈ ofPairs pairs, p e.1 ∧ q e.2 := by
  have hfold : ∀ {entries : Entries}, (∀ e ∈ entries, p e.1 ∧ q e.2) →
      ∀ e ∈ pairs.foldl (fun entries e => entries.put e.1 e.2) entries, p e.1 ∧ q e.2 := by
    induction pairs with
    | nil => exact fun h => h
    | cons d pairs ih =>
        obtain ⟨hd, hpairs⟩ := List.forall_mem_cons.mp hpairs
        exact fun h => ih hpairs (forall_put p q h hd.1 hd.2)
  exact hfold fun e he => absurd he List.not_mem_nil

/-- The value that is found under a key is in the map. -/
theorem mem_of_valueAt? (h : entries.valueAt? key = some value) : ∃ e ∈ entries, e.2 = value := by
  obtain ⟨e, he, rfl⟩ := Option.map_eq_some_iff.mp h
  exact ⟨e, List.mem_of_find?_eq_some he, rfl⟩

end Entries

/-! ### Types of values -/

/-- The first part of a value that is not of the type, as it is described when a conversion fails.
Nothing is of every type. -/
def HandleType.mismatch? : HandleType → PlainValue → Option String
  | _, .null => none
  | .object, _ => none
  | .array elem, .array _ elems =>
    elems.zipIdx.findSome? fun e => (elem.mismatch? e.1).map fun m =>
      s!"Array[index {e.2}: {m}]"
  | .map key value, .map _ entries =>
    entries.findSome? fun e =>
      ((key.mismatch? e.1).map fun m => "Map[" ++ m ++ ", " ++ value.ref.typeName ++ "]").or
        ((value.mismatch? e.2).map fun m => "Map[" ++ key.ref.typeName ++ ", " ++ m ++ "]")
  | t, v => if v.cls = t.ref.cls then none else some v.cls.key

namespace HandleType

theorem findSome?_eq_none_of_zipIdx {elem : HandleType} {elems : List PlainValue} :
    (elems.zipIdx.findSome? fun e => (elem.mismatch? e.1).map fun m =>
      s!"Array[index {e.2}: {m}]") = none ↔ ∀ v ∈ elems, elem.mismatch? v = none := by
  simp only [List.findSome?_eq_none_iff, Option.map_eq_none_iff]
  constructor
  · intro h v hv
    obtain ⟨i, hi, rfl⟩ := List.getElem_of_mem hv
    exact h (elems[i], i) (List.mk_mem_zipIdx_iff_getElem?.mpr (List.getElem?_eq_getElem hi))
  · intro h e he
    exact h e.1 (List.fst_mem_of_mem_zipIdx he)

/-- A box is neither an array nor a map. -/
theorem cls_box_ne (c : BoxContent) : c.cls ≠ .array ∧ c.cls ≠ .map ∧ c.cls ≠ .string := by
  cases c <;> simp only [BoxContent.cls] <;> decide

/-- A value is of a type of boxes if it is a box with such a content. -/
theorem mismatch?_box_eq_none {kind : BoxKind} {v : PlainValue} :
    (box kind).mismatch? v = none ↔
      v = .null ∨ ∃ stamp c, v = .box stamp c ∧ kind = .ofContent c := by
  have hkind : ∀ c : BoxContent, c.cls = kind.ref.cls ↔ kind = .ofContent c := by
    intro c
    cases kind <;> cases c <;> simp only [BoxContent.cls, BoxKind.ofContent] <;> decide
  have hother : ∀ c ∈ [ObjectClass.string, .array, .map], c ≠ kind.ref.cls := by
    cases kind <;> decide
  cases v with
  | null => simp [mismatch?]
  | box stamp c => simp [mismatch?, PlainValue.cls, ref, hkind]
  | text | array | map => simp [mismatch?, PlainValue.cls, ref, hother]

/-- A value is of the type of arrays if it is an array of values of the type of the elements. -/
theorem mismatch?_array_eq_none {elem : HandleType} {v : PlainValue} :
    (array elem).mismatch? v = none ↔
      v = .null ∨ ∃ stamp elems, v = .array stamp elems ∧ ∀ v ∈ elems, elem.mismatch? v = none := by
  have htext : ObjectClass.string ≠ .array := by decide
  have hmap : ObjectClass.map ≠ .array := by decide
  cases v with
  | null => simp [mismatch?]
  | array stamp elems =>
      rw [mismatch?, findSome?_eq_none_of_zipIdx]
      simp
  | text => simp [mismatch?, PlainValue.cls, ref, RefType.cls, htext]
  | box stamp c => simp [mismatch?, PlainValue.cls, ref, RefType.cls, (cls_box_ne c).1]
  | map => simp [mismatch?, PlainValue.cls, ref, RefType.cls, hmap]

/-- A value is of a type of maps if it is a map between values of the two types. -/
theorem mismatch?_map_eq_none {key value : HandleType} {v : PlainValue} :
    (map key value).mismatch? v = none ↔
      v = .null ∨ ∃ stamp entries, v = .map stamp entries ∧
        ∀ e ∈ entries, key.mismatch? e.1 = none ∧ value.mismatch? e.2 = none := by
  have htext : ObjectClass.string ≠ .map := by decide
  have harray : ObjectClass.array ≠ .map := by decide
  cases v with
  | null => simp [mismatch?]
  | map stamp entries =>
      rw [mismatch?]
      simp [List.findSome?_eq_none_iff]
  | text => simp [mismatch?, PlainValue.cls, ref, RefType.cls, htext]
  | box stamp c => simp [mismatch?, PlainValue.cls, ref, RefType.cls, (cls_box_ne c).2.1]
  | array => simp [mismatch?, PlainValue.cls, ref, RefType.cls, harray]

/-- The elements of an array of a type are of the type of the elements. -/
theorem mismatch?_of_elements {elem : HandleType} {v : PlainValue}
    (h : (array elem).mismatch? v = none) : ∀ u ∈ v.elements, elem.mismatch? u = none := by
  rcases mismatch?_array_eq_none.mp h with rfl | ⟨stamp, elems, rfl, helems⟩
  · exact fun u hu => absurd hu List.not_mem_nil
  · exact helems

/-- So are the entries of a map. -/
theorem mismatch?_of_entries {key value : HandleType} {v : PlainValue}
    (h : (map key value).mismatch? v = none) :
    ∀ e ∈ v.entries, key.mismatch? e.1 = none ∧ value.mismatch? e.2 = none := by
  rcases mismatch?_map_eq_none.mp h with rfl | ⟨stamp, entries, rfl, hentries⟩
  · exact fun e he => absurd he List.not_mem_nil
  · exact hentries

end HandleType

end ObjectRuntime.Handles
