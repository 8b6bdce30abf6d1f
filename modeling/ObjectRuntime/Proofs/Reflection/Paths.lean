import ObjectRuntime.Reflection.Attributes
import Mathlib.Data.List.ReduceOption
import Mathlib.Logic.Relation
import Mathlib.Tactic.Common
set_option autoImplicit false

/-!
# Access paths

An object of a reflected class holds others in its attributes, an array in its elements and a map
in the values of its entries.  An access path names one such place after another, and tells on the
way whether it has come to a place where variables are defined.  `World.Refers` is what one object
holds, by a path or not, and `World.AcyclicAt` says that nothing below an object holds itself.
-/

namespace ObjectRuntime

open Relation (ReflTransGen TransGen)

/-- A step of an access path. -/
inductive Step where
  | attr (name : String)
  | index (i : Nat)
  | key (s : String)
  deriving DecidableEq, Repr

/-- What an access path leads to, and whether that is a place where variables are defined. -/
structure Stop where
  id : ObjId
  isDefinition : Bool
  deriving DecidableEq, Repr

namespace World

variable {κ : Type} {w : World κ} {a b c : ObjId} {v : Value}

/-- The attributes of an object, none if its type is not reflected. -/
def shown (w : World κ) (id : ObjId) : List Attr := (w.attrs id).toOption.getD []

/-- The text of a key, if it is a string. -/
def keyText? (w : World κ) (key : Ref) : Option String := key.bind w.text?

/-- The places that steps lead to from an object.  Elements and entries are places of definition
if the container stands at one; an attribute is one if its field says so. -/
def slots (w : World κ) (id : ObjId) (isDefinition : Bool) : List (Step × Ref × Bool) :=
  match w.schemaOf? id, w.payload? id with
  | some _, _ => (w.shown id).map fun a => (.attr a.key, a.value.object?, a.isDefinition)
  | none, some (.array elems) => elems.mapIdx fun i r => (.index i, r, isDefinition)
  | none, some (.map entries) =>
    entries.filterMap fun e => (w.keyText? e.1).map fun s => (.key s, e.2, isDefinition)
  | none, _ => []

/-- Where an access path leads from an object. -/
def walk (w : World κ) : Stop → List Step → Option Stop
  | here, [] => some here
  | here, step :: path =>
    match (w.slots here.id here.isDefinition).lookup step with
    | some (some next, isDefinition) => w.walk ⟨next, isDefinition⟩ path
    | _ => none

/-- Where an access path leads from the root of a graph. -/
def follow (w : World κ) (root : Ref) (path : List Step) : Option Stop :=
  root.bind fun id => w.walk ⟨id, false⟩ path

/-- The object is a variable. -/
def IsVariable (w : World κ) (id : ObjId) : Prop :=
  ∃ schema, w.schemaOf? id = some schema ∧ schema.kind = .variable

/-- One object holds a reference to another. -/
def Refers (w : World κ) (a b : ObjId) : Prop :=
  ∃ content, w.payload? a = some content ∧ b ∈ content.references

/-- No object at or below `a` holds itself, directly or through others. -/
def AcyclicAt (w : World κ) (a : ObjId) : Prop :=
  ∀ c, ReflTransGen w.Refers a c → ¬ TransGen w.Refers c c

/-- The graph of a reference has no cycle. -/
def Acyclic (w : World κ) (r : Ref) : Prop := ∀ a, r = some a → w.AcyclicAt a

theorem AcyclicAt.step (h : w.AcyclicAt a) (hab : w.Refers a b) : w.AcyclicAt b :=
  fun c hbc => h c (.head hab hbc)

theorem AcyclicAt.not_below (h : w.AcyclicAt a) : ¬ TransGen w.Refers a a := h a .refl

/-- Objects hold older objects only, as they do unless containers are changed in place. -/
def isOrdered (w : World κ) : Bool :=
  (List.range w.heap.cells.size).all fun i =>
    ((w.payload? ⟨i⟩).map Payload.references).getD [] |>.all fun b => b.index < i

theorem lt_of_refers (h : w.isOrdered = true) (hab : w.Refers a b) : b.index < a.index := by
  obtain ⟨content, hcontent, hb⟩ := hab
  have ha : a.index < w.heap.cells.size := by
    by_contra ha
    simp [payload?, Heap.get?, Array.getElem?_eq_none (Nat.le_of_not_lt ha)] at hcontent
  have hall := List.all_eq_true.mp h a.index (List.mem_range.mpr ha)
  simp only [hcontent, Option.map_some, Option.getD_some] at hall
  simpa using List.all_eq_true.mp hall b hb

theorem le_of_reaches (h : w.isOrdered = true) (hab : ReflTransGen w.Refers a b) :
    b.index ≤ a.index := by
  induction hab with
  | refl => exact Nat.le_refl _
  | tail _ hstep ih => exact Nat.le_trans (Nat.le_of_lt (lt_of_refers h hstep)) ih

/-- Where objects hold older objects only there is no cycle. -/
theorem acyclicAt_of_isOrdered (h : w.isOrdered = true) (a : ObjId) : w.AcyclicAt a := by
  intro c _ hcycle
  obtain ⟨d, hfirst, hrest⟩ := TransGen.head'_iff.mp hcycle
  exact Nat.lt_irrefl _ (Nat.lt_of_le_of_lt (le_of_reaches h hrest) (lt_of_refers h hfirst))

/-! ## Attributes -/

/-- What is in a box is no object. -/
theorem object?_of_boxed? (h : w.boxed? a = some v) : v.object? = none := by
  simp only [boxed?, bind, Option.bind_eq_some_iff] at h
  obtain ⟨content, -, h⟩ := h
  split_ifs at h
  all_goals
    obtain ⟨_, -, rfl⟩ := Option.map_eq_some_iff.mp h
    rfl

/-- A reference is shown as a value that carries it. -/
@[simp] theorem object?_showRef (w : World κ) (id : ObjId) :
    (w.showRef (some id)).object? = some id := by
  simp only [showRef, classify]
  split_ifs with htensor hmodule hfunction
  · rfl
  · rfl
  · rfl
  · contradiction
  · cases hbox : w.boxed? id with
    | none => rfl
    | some v =>
        have hv := object?_of_boxed? hbox
        cases v with
        | object => cases hv
        | _ => rfl

/-- A field is shown as a value that carries the same object. -/
@[simp] theorem object?_showField (w : World κ) (v : Value) :
    (w.showField v).object? = v.object? := by
  cases hv : v.object? with
  | none => simp [showField, hv]
  | some id => simp [showField, hv]

/-- An object among the values that a schema reads from a content is held by the content. -/
theorem mem_references_of_mem_values {schema : Schema} {content : Payload κ}
    (hv : v ∈ schema.values content) (ha : v.object? = some a) : a ∈ content.references := by
  have hbox : ∀ {α : Type} {f : α → Value} {x : Option α}, (∀ n, (f n).object? = none) →
      v ∈ (x.map f).toList → False := by
    intro α f x hf hmem
    obtain ⟨n, -, rfl⟩ := Option.map_eq_some_iff.mp (Option.mem_toList.mp hmem)
    exact absurd ha (by simp [hf])
  cases content with
  | node values => exact List.mem_filterMap.mpr ⟨v, hv, ha⟩
  | _ =>
      simp only [Schema.values] at hv
      split_ifs at hv
      · exact (hbox (fun _ => rfl) hv).elim
      · exact (hbox (fun _ => rfl) hv).elim
      · exact (hbox (fun _ => rfl) hv).elim
      · cases hv

/-- The attributes of an object of a reflected class show the visible fields of the class. -/
theorem attrs_eq {schema : Schema} (h : w.schemaOf? a = some schema) :
    w.attrs a = .ok (List.zipWith
      (fun (f : Field) v => ⟨f.key, w.showField v, f.role = .definition⟩) schema.visible
      (((w.payload? a).map schema.values).getD [])) := by
  simp [attrs, h]

theorem attrs_eq_shown {schema : Schema} (h : w.schemaOf? a = some schema) :
    w.attrs a = .ok (w.shown a) := by
  simp [shown, attrs_eq h, Except.toOption]

/-- Objects of one class show the same fields. -/
theorem shown_field {schema : Schema} {i : Nat} (ha : w.schemaOf? a = some schema)
    (hb : w.schemaOf? b = some schema) (hi : i < (w.shown a).length)
    (hi' : i < (w.shown b).length) :
    (w.shown a)[i].key = (w.shown b)[i].key ∧
      (w.shown a)[i].isDefinition = (w.shown b)[i].isDefinition := by
  simp only [shown, attrs_eq ha, attrs_eq hb, Except.toOption, Option.getD_some,
    List.getElem_zipWith, and_self]

/-- What an attribute carries is held by the object. -/
theorem refers_of_attr {attr : Attr} (hattr : attr ∈ w.shown a)
    (hb : attr.value.object? = some b) : w.Refers a b := by
  cases hschema : w.schemaOf? a with
  | none => simp [shown, attrs, hschema, Except.toOption] at hattr
  | some schema =>
      rw [shown, attrs_eq hschema, Except.toOption, Option.getD_some,
        ← List.map_uncurry_zip_eq_zipWith] at hattr
      obtain ⟨⟨f, v⟩, hmem, rfl⟩ := List.mem_map.mp hattr
      have hv := (List.of_mem_zip hmem).2
      cases hcontent : w.payload? a with
      | none => simp [hcontent] at hv
      | some content =>
          have hv : v ∈ schema.values content := by simpa [hcontent] using hv
          have hb : v.object? = some b := by simpa using hb
          exact ⟨content, hcontent, mem_references_of_mem_values hv hb⟩

theorem refers_of_element {elems : List Ref} (hcontent : w.payload? a = some (.array elems))
    (hb : some b ∈ elems) : w.Refers a b :=
  ⟨_, hcontent, List.reduceOption_mem_iff.mpr hb⟩

theorem refers_of_entry {entries : List (Ref × Ref)} {k v : Ref}
    (hcontent : w.payload? a = some (.map entries)) (hmem : (k, v) ∈ entries)
    (hb : v = some b) : w.Refers a b :=
  ⟨_, hcontent, List.mem_flatMap.mpr ⟨(k, v), hmem, by simp [hb]⟩⟩

end World

end ObjectRuntime
