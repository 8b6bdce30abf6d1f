import ObjectRuntime.Proofs.Reflection.Paths
import ObjectRuntime.Proofs.Text.Numbers
import Mathlib.Data.List.Nodup
import Mathlib.Data.List.Perm.Subperm
set_option autoImplicit false

/-!
# What a traversal meets

A traversal meets in an object what its attributes, its elements, or the keys and values of its
entries refer to, and each of these at a place where variables are defined or where they are used.
`World.occurrences` lists the variables of a graph in the order in which they are met.  In a graph
without cycles no chain of objects is longer than there are objects, so the depth to which the
traversals go is never reached.
-/

namespace ObjectRuntime

open Relation (ReflTransGen TransGen)

namespace World

variable {κ : Type} {w : World κ} {a b x : ObjId} {d e : Bool} {n m : Nat} {g : Ref}

/-! ## One object -/

/-- What a reference refers to, at a place of definition or of use. -/
def placed (isDefinition : Bool) (r : Ref) : List (ObjId × Bool) :=
  (r.map fun id => (id, isDefinition)).toList

/-- What is met in an object, in this order.  Elements and values of entries are at places of
definition if the container is; a key is at a place of use. -/
def parts (w : World κ) (id : ObjId) (isDefinition : Bool) : List (ObjId × Bool) :=
  match w.schemaOf? id, w.payload? id with
  | some _, _ => (w.shown id).flatMap fun a => placed a.isDefinition a.value.object?
  | none, some (.array elems) => elems.flatMap (placed isDefinition)
  | none, some (.map entries) =>
    entries.flatMap fun e => placed false e.1 ++ placed isDefinition e.2
  | none, _ => []

/-- One object is met in another. -/
def Meets (w : World κ) (a b : ObjId) : Prop := ∃ d e, (b, e) ∈ w.parts a d

/-- The object is met on the way through a graph. -/
def Met (w : World κ) (g : Ref) (id : ObjId) : Prop :=
  ∃ top, g = some top ∧ ReflTransGen w.Meets top id

theorem mem_placed {r : Ref} : (x, e) ∈ placed d r ↔ r = some x ∧ e = d := by
  cases r with
  | none => simp [placed]
  | some id => simp [placed, eq_comm]

/-- An object is met at an attribute, as an element, or in an entry. -/
theorem meets_cases (h : w.Meets a b) :
    (w.schemaOf? a ≠ none ∧ ∃ attr ∈ w.shown a, attr.value.object? = some b) ∨
      (w.schemaOf? a = none ∧
        ((∃ elems, w.payload? a = some (.array elems) ∧ some b ∈ elems) ∨
          ∃ entries, w.payload? a = some (.map entries) ∧
            ∃ e ∈ entries, e.1 = some b ∨ e.2 = some b)) := by
  obtain ⟨d, e, h⟩ := h
  unfold parts at h
  split at h
  · rename_i hschema
    obtain ⟨attr, hattr, h⟩ := List.mem_flatMap.mp h
    exact .inl ⟨by simp [hschema], attr, hattr, (mem_placed.mp h).1⟩
  · rename_i elems hschema hcontent
    obtain ⟨r, hr, h⟩ := List.mem_flatMap.mp h
    obtain ⟨rfl, -⟩ := mem_placed.mp h
    exact .inr ⟨hschema, .inl ⟨elems, hcontent, hr⟩⟩
  · rename_i entries hschema hcontent
    obtain ⟨entry, hentry, h⟩ := List.mem_flatMap.mp h
    refine .inr ⟨hschema, .inr ⟨entries, hcontent, entry, hentry, ?_⟩⟩
    exact (List.mem_append.mp h).imp (fun h => (mem_placed.mp h).1) fun h => (mem_placed.mp h).1
  · cases h

/-- Nothing is met in an object that is neither reflected nor an array or a map. -/
theorem not_meets {content : Payload κ} (hschema : w.schemaOf? a = none)
    (hcontent : w.payload? a = some content) (harray : ∀ elems, content ≠ .array elems)
    (hmap : ∀ entries, content ≠ .map entries) : ¬ w.Meets a b := by
  intro h
  rcases meets_cases h with ⟨hreflected, -⟩ | ⟨-, ⟨elems, helems, -⟩ | ⟨entries, hentries, -⟩⟩
  · exact hreflected hschema
  · exact harray elems (Option.some.inj (hcontent.symm.trans helems))
  · exact hmap entries (Option.some.inj (hcontent.symm.trans hentries))

/-- What is met in an object is held by it. -/
theorem refers_of_meets (h : w.Meets a b) : w.Refers a b := by
  rcases meets_cases h with ⟨-, attr, hattr, hb⟩ |
    ⟨-, ⟨elems, hcontent, hb⟩ | ⟨entries, hcontent, e, he, hb⟩⟩
  · exact refers_of_attr hattr hb
  · exact refers_of_element hcontent hb
  · refine ⟨_, hcontent, List.mem_flatMap.mpr ⟨e, he, ?_⟩⟩
    rcases hb with hb | hb <;> simp [hb]

theorem Met.step (ha : w.Met g a) (hab : w.Meets a b) : w.Met g b := by
  obtain ⟨top, htop, hreach⟩ := ha
  exact ⟨top, htop, hreach.tail hab⟩

theorem Met.root (top : ObjId) : w.Met (some top) top := ⟨top, rfl, .refl⟩

/-! ### The places of an object -/

theorem meets_of_attr {attr : Attr} (hattr : attr ∈ w.shown a)
    (hb : attr.value.object? = some b) : w.Meets a b := by
  refine ⟨false, attr.isDefinition, ?_⟩
  cases hschema : w.schemaOf? a with
  | none => simp [shown, attrs, hschema, Except.toOption] at hattr
  | some schema =>
      simp only [parts, hschema]
      exact List.mem_flatMap.mpr ⟨attr, hattr, mem_placed.mpr ⟨hb, rfl⟩⟩

theorem meets_of_element {elems : List Ref} (hschema : w.schemaOf? a = none)
    (hcontent : w.payload? a = some (.array elems)) (hb : some b ∈ elems) : w.Meets a b := by
  refine ⟨false, false, ?_⟩
  simp only [parts, hschema, hcontent]
  exact List.mem_flatMap.mpr ⟨some b, hb, mem_placed.mpr ⟨rfl, rfl⟩⟩

theorem meets_of_entry {entries : List (Ref × Ref)} {entry : Ref × Ref}
    (hschema : w.schemaOf? a = none) (hcontent : w.payload? a = some (.map entries))
    (hentry : entry ∈ entries) (hb : entry.1 = some b ∨ entry.2 = some b) : w.Meets a b := by
  refine ⟨false, false, ?_⟩
  simp only [parts, hschema, hcontent]
  refine List.mem_flatMap.mpr ⟨entry, hentry, List.mem_append.mpr ?_⟩
  exact hb.imp (fun hb => mem_placed.mpr ⟨hb, rfl⟩) fun hb => mem_placed.mpr ⟨hb, rfl⟩

/-- Below an object are the object, and what is below those that are met in it. -/
theorem met_cases (h : w.Met (some a) x) : x = a ∨ ∃ b, w.Meets a b ∧ w.Met (some b) x := by
  obtain ⟨top, htop, hreach⟩ := h
  cases htop
  obtain rfl | ⟨b, hab, hbx⟩ := hreach.cases_head
  · exact .inl rfl
  · exact .inr ⟨b, hab, b, rfl, hbx⟩

/-- The floating point numbers among the attributes of a graph are finite. -/
def FiniteFloats (w : World κ) (g : Ref) : Prop :=
  ∀ a, w.Met g a → ∀ attr ∈ w.shown a, ∀ x, attr.value = .float x → x.IsFinite

/-! ## Variables -/

/-- The object is a variable, as a test. -/
def isVariable (w : World κ) (id : ObjId) : Bool :=
  (w.schemaOf? id).any fun schema => schema.kind = .variable

/-- The variables met from an object on to some depth, in this order, and whether each is at a place
of definition.  What a variable holds is not looked at. -/
def occurrencesWithin (w : World κ) : Nat → ObjId → Bool → List (ObjId × Bool)
  | 0, _, _ => []
  | depth + 1, id, isDefinition =>
    if w.isVariable id then [(id, isDefinition)]
    else (w.parts id isDefinition).flatMap fun p => w.occurrencesWithin depth p.1 p.2

/-- The variables met in an object that is no variable. -/
def occurrencesIn (w : World κ) (depth : Nat) (id : ObjId) (isDefinition : Bool) :
    List (ObjId × Bool) :=
  (w.parts id isDefinition).flatMap fun p => w.occurrencesWithin depth p.1 p.2

/-- The variables met from a place. -/
def occurrencesAt (w : World κ) (depth : Nat) (isDefinition : Bool) (r : Ref) :
    List (ObjId × Bool) :=
  (placed isDefinition r).flatMap fun p => w.occurrencesWithin depth p.1 p.2

/-- The variables of a graph in the order in which they are met. -/
def occurrences (w : World κ) (g : Ref) : List (ObjId × Bool) :=
  w.occurrencesAt (w.heap.cells.size + 1) false g

/-- The variable is met at a place of use before any place of definition. -/
def FirstUsed (w : World κ) (g : Ref) (x : ObjId) : Prop :=
  ∃ before after, w.occurrences g = before ++ (x, false) :: after ∧ (x, true) ∉ before

/-- Graphs in which no variable is met from the attributes of another one. -/
def Flat (w : World κ) (g : Ref) : Prop :=
  ∀ x y, w.Met g x → w.isVariable x = true → TransGen w.Meets x y → w.isVariable y = false

theorem isVariable_eq {schema : Schema} (h : w.schemaOf? a = some schema) :
    w.isVariable a = decide (schema.kind = .variable) := by
  simp [isVariable, h]

theorem not_isVariable (h : w.schemaOf? a = none) : w.isVariable a = false := by
  simp [isVariable, h]

/-- What is met in an object of a reflected class does not depend on its own place. -/
theorem parts_of_reflected (h : w.schemaOf? a ≠ none) : w.parts a d = w.parts a e := by
  cases hschema : w.schemaOf? a with
  | none => exact absurd hschema h
  | some schema => simp only [parts, hschema]

/-! ### The variables met in an object -/

theorem occurrencesWithin_succ : w.occurrencesWithin (n + 1) a d =
    if w.isVariable a then [(a, d)] else w.occurrencesIn n a d := by
  rw [occurrencesWithin, occurrencesIn]

@[simp] theorem occurrencesAt_none : w.occurrencesAt n d none = [] := rfl

@[simp] theorem occurrencesAt_some : w.occurrencesAt n d (some a) = w.occurrencesWithin n a d := by
  simp [occurrencesAt, placed]

theorem occurrencesIn_attrs (h : w.schemaOf? a ≠ none) :
    w.occurrencesIn n a d =
      (w.shown a).flatMap fun attr => w.occurrencesAt n attr.isDefinition attr.value.object? := by
  obtain ⟨schema, hschema⟩ := Option.ne_none_iff_exists'.mp h
  simp only [occurrencesIn, parts, hschema, List.flatMap_assoc]
  rfl

theorem occurrencesIn_array {elems : List Ref} (hschema : w.schemaOf? a = none)
    (hcontent : w.payload? a = some (.array elems)) :
    w.occurrencesIn n a d = elems.flatMap (w.occurrencesAt n d) := by
  simp only [occurrencesIn, parts, hschema, hcontent, List.flatMap_assoc]
  rfl

theorem occurrencesIn_map {entries : List (Ref × Ref)} (hschema : w.schemaOf? a = none)
    (hcontent : w.payload? a = some (.map entries)) :
    w.occurrencesIn n a d = entries.flatMap fun e =>
      w.occurrencesAt n false e.1 ++ w.occurrencesAt n d e.2 := by
  simp only [occurrencesIn, parts, hschema, hcontent, List.flatMap_assoc, List.flatMap_append]
  rfl

/-- Nothing is met in an object that is neither reflected nor an array or a map. -/
theorem occurrencesIn_leaf {content : Payload κ} (hschema : w.schemaOf? a = none)
    (hcontent : w.payload? a = some content) (harray : ∀ elems, content ≠ .array elems)
    (hmap : ∀ entries, content ≠ .map entries) : w.occurrencesIn n a d = [] := by
  cases content with
  | array elems => exact absurd rfl (harray elems)
  | map entries => exact absurd rfl (hmap entries)
  | _ => simp only [occurrencesIn, parts, hschema, hcontent, List.flatMap_nil]

/-! ## Depth -/

/-- No chain of objects that starts here is longer than the bound. -/
def NestedWithin (w : World κ) : Nat → ObjId → Prop
  | 0, _ => False
  | n + 1, a => ∀ b, w.Refers a b → w.NestedWithin n b

/-- Objects above one that is reached, of which there are as many as steps have been made. -/
theorem nestedWithin_of_above (path : List ObjId) (hdistinct : path.Nodup)
    (habove : ∀ p ∈ path, p.index < w.heap.cells.size ∧ TransGen w.Refers p a)
    (ha : w.AcyclicAt a) (hn : w.heap.cells.size < path.length + n) : w.NestedWithin n a := by
  induction n generalizing path a with
  | zero =>
      -- more distinct objects than there are
      have hsubset : path.map ObjId.index ⊆ List.range w.heap.cells.size := by
        intro i hi
        obtain ⟨p, hp, rfl⟩ := List.mem_map.mp hi
        exact List.mem_range.mpr (habove p hp).1
      have hinjective : Function.Injective ObjId.index := fun _ _ h => by
        rwa [ObjId.mk.injEq]
      have hle := (List.subperm_of_subset (hdistinct.map hinjective) hsubset).length_le
      rw [List.length_map, List.length_range] at hle
      omega
  | succ n ih =>
      intro b hrefers
      refine ih (a :: path) (List.nodup_cons.mpr ⟨fun hmem => ?_, hdistinct⟩) (fun p hp => ?_)
        (ha.step hrefers) (by rw [List.length_cons]; omega)
      · exact ha.not_below (habove a hmem).2
      · rcases List.mem_cons.mp hp with rfl | hp
        · refine ⟨?_, .single hrefers⟩
          obtain ⟨content, hcontent, -⟩ := hrefers
          by_contra hlarge
          simp [payload?, Heap.get?, Array.getElem?_eq_none (Nat.le_of_not_lt hlarge)] at hcontent
        · exact ⟨(habove p hp).1, (habove p hp).2.tail hrefers⟩

/-- In a graph without cycles no chain of objects is longer than there are objects. -/
theorem AcyclicAt.nestedWithin (h : w.AcyclicAt a) : w.NestedWithin (w.heap.cells.size + 1) a :=
  nestedWithin_of_above [] .nil (fun _ hp => nomatch hp) h (by simp)

/-- Beyond the depth of an object no variable is found. -/
theorem mem_occurrencesWithin (h : w.NestedWithin n a)
    (hx : (x, e) ∈ w.occurrencesWithin m a d) : (x, e) ∈ w.occurrencesWithin n a d := by
  induction n generalizing m a d with
  | zero => exact h.elim
  | succ n ih =>
      cases m with
      | zero => cases hx
      | succ m =>
          simp only [occurrencesWithin] at hx ⊢
          split_ifs at hx ⊢
          · exact hx
          · obtain ⟨p, hp, hx⟩ := List.mem_flatMap.mp hx
            exact List.mem_flatMap.mpr ⟨p, hp, ih (h p.1 (refers_of_meets ⟨d, p.2, hp⟩)) hx⟩

/-- What occurs below an object is met there. -/
theorem reaches_of_mem_occurrencesWithin (hx : (x, e) ∈ w.occurrencesWithin n a d) :
    ReflTransGen w.Meets a x ∧ w.isVariable x = true := by
  induction n generalizing a d with
  | zero => cases hx
  | succ n ih =>
      simp only [occurrencesWithin] at hx
      split_ifs at hx with hvar
      · obtain ⟨rfl, -⟩ := Prod.mk.inj (List.mem_singleton.mp hx)
        exact ⟨.refl, hvar⟩
      · obtain ⟨p, hp, hx⟩ := List.mem_flatMap.mp hx
        obtain ⟨hreach, hvar⟩ := ih hx
        exact ⟨.head ⟨d, p.2, hp⟩ hreach, hvar⟩

/-- What occurs in a graph node does not depend on the place of the node. -/
theorem occurrencesWithin_of_reflected (hschema : w.schemaOf? a ≠ none)
    (hvar : w.isVariable a = false) : w.occurrencesWithin n a d = w.occurrencesWithin n a e := by
  cases n with
  | zero => rfl
  | succ n => simp [occurrencesWithin, hvar, parts_of_reflected (e := e) hschema]

end World

end ObjectRuntime
