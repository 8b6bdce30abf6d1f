import ObjectRuntime.Proofs.Reflection.Asking
import ObjectRuntime.Proofs.Reflection.Visiting
import ObjectRuntime.Proofs.Tensor.Sharing
set_option autoImplicit false

/-!
# Graphs in worlds that have changed elsewhere

Making other objects and looking classes up leave the objects of a graph as they are: they keep their
types and contents, what can be reached from them, the elements of tensors and the numbers that are
shown of them.
-/

namespace ObjectRuntime

open Heap (Grown)
open Relation (ReflTransGen)

namespace World

variable {κ : Type} {w v : World κ} {h : Heap κ} {r : Ref} {a b x : ObjId} {payload : Payload κ}
  {n m : Nat}

/-! ## Objects in a heap that has grown -/

section Grown

variable (hgrown : Grown w.heap h)
include hgrown

theorem payload?_grown (hcontent : w.payload? a = some payload) :
    (w.withHeap h).payload? a = some payload := by
  obtain ⟨o, ho, hpayload⟩ := Option.map_eq_some_iff.mp hcontent
  obtain ⟨k, hk⟩ := hgrown a o ho
  simp [payload?, hk, hpayload]

theorem typeIndex_grown (hcontent : w.payload? a = some payload) :
    (w.withHeap h).typeIndex a = w.typeIndex a := by
  obtain ⟨o, ho, -⟩ := Option.map_eq_some_iff.mp hcontent
  obtain ⟨k, hk⟩ := hgrown a o ho
  simp [typeIndex, hk, ho]

theorem schemaOf?_grown (hcontent : w.payload? a = some payload) :
    (w.withHeap h).schemaOf? a = w.schemaOf? a :=
  (w.sameClasses_withHeap h).schemaOf? (typeIndex_grown hgrown hcontent)

theorem text?_grown (hcontent : w.payload? a = some payload) :
    (w.withHeap h).text? a = w.text? a := by
  simp only [text?, payload?_grown hgrown hcontent, hcontent]

theorem tensor?_grown (hcontent : w.payload? a = some payload) :
    (w.withHeap h).tensor? a = w.tensor? a := by
  simp only [tensor?, payload?_grown hgrown hcontent, hcontent]

theorem refers_grown (hcontent : w.payload? a = some payload) :
    (w.withHeap h).Refers a b ↔ w.Refers a b := by
  simp only [Refers, payload?_grown hgrown hcontent, hcontent]

end Grown

/-- Everything that can be reached from an object is there. -/
def Lives (w : World κ) (a : ObjId) : Prop :=
  ∀ x, ReflTransGen w.Refers a x → ∃ payload, w.payload? x = some payload

theorem Lives.step (hlives : w.Lives a) (hab : w.Refers a b) : w.Lives b :=
  fun x hx => hlives x (.head hab hx)

theorem IsMade.payload? (hmade : w.IsMade a) : ∃ payload, w.payload? a = some payload := by
  cases hmade with
  | text _ _ content | shape _ _ content | array _ _ content | map _ _ content
  | tensor _ _ content | node _ _ _ _ _ _ content => exact ⟨_, content⟩

theorem IsMade.distinct (hmade : w.IsMade a) {entries : List (Ref × Ref)}
    (hcontent : w.payload? a = some (.map entries)) :
    entries.Pairwise fun e e' => w.sameKey e.1 e'.1 = false := by
  cases hmade with
  | map entries' _ content distinct =>
      cases hcontent.symm.trans content
      exact distinct
  | node schema values _ _ _ _ content =>
      have hplain := plainClass?_payload (κ := κ) schema values
      rw [← Option.some.inj (hcontent.symm.trans content)] at hplain
      cases hplain
  | text _ _ content | shape _ _ content | array _ _ content | tensor _ _ content =>
      cases hcontent.symm.trans content

theorem WellMade.lives (hmade : w.WellMade r) (ha : w.Below r a) : w.Lives a := by
  obtain ⟨top, htop, hreach⟩ := ha
  exact fun x hx => (hmade.made x ⟨top, htop, hreach.trans hx⟩).payload?

theorem Lives.reaches (hlives : w.Lives a) (hgrown : Grown w.heap h)
    (hx : ReflTransGen (w.withHeap h).Refers a x) : ReflTransGen w.Refers a x := by
  induction hx with
  | refl => exact .refl
  | tail _ hstep ih =>
      obtain ⟨payload, hcontent⟩ := hlives _ ih
      exact ih.tail ((refers_grown hgrown hcontent).mp hstep)

/-- A graph without cycles has none when other objects have been made. -/
theorem AcyclicAt.grown (hacyclic : w.AcyclicAt a) (hlives : w.Lives a) (hgrown : Grown w.heap h) :
    (w.withHeap h).AcyclicAt a := by
  intro c hac hcycle
  have hreach := hlives.reaches hgrown hac
  have hbelow : w.Lives c := fun x hx => hlives x (hreach.trans hx)
  obtain ⟨b, hcb, hbc⟩ := Relation.TransGen.head'_iff.mp hcycle
  obtain ⟨payload, hcontent⟩ := hlives c hreach
  have hfirst := (refers_grown hgrown hcontent).mp hcb
  exact hacyclic c hreach (.head' hfirst ((hbelow.step hfirst).reaches hgrown hbc))

/-! ### Memory of tensors -/

/-- A tensor with shared memory holds the one that it shares it with. -/
theorem refers_of_source (hsource : w.source? a = some b) : w.Refers a b := by
  obtain ⟨t, ht, hshared⟩ := Option.bind_eq_some_iff.mp hsource
  refine ⟨_, payload?_of_tensor? ht, ?_⟩
  rw [Tensor.references_tensor, hshared]
  exact List.mem_singleton_self b

/-- No more is followed than a chain of objects is long. -/
theorem memoryHome_of_nested (hnested : w.NestedWithin (n + 1) a) (hle : n ≤ m) :
    w.memoryHome m a = w.memoryHome n a := by
  refine (memoryHome_of_shorter (P := fun n a => w.NestedWithin (n + 1) a) (fun {x} hx => ?_)
    (fun hx hsource => hx _ (refers_of_source hsource)) hnested hle).1
  exact Option.eq_none_iff_forall_ne_some.mpr fun y hy => hx y (refers_of_source hy)

/-- Following shared memory stays among what the tensor holds. -/
theorem reaches_memoryHome (n : Nat) (a : ObjId) : ReflTransGen w.Refers a (w.memoryHome n a) := by
  induction n generalizing a with
  | zero => exact .refl
  | succ n ih =>
      cases hsource : w.source? a with
      | none => rw [memoryHome_of_no_source hsource]
      | some b =>
          rw [memoryHome_of_source hsource]
          exact .head (refers_of_source hsource) (ih b)

theorem Lives.memoryHome (hlives : w.Lives a) (hgrown : Grown w.heap h) (n : Nat) :
    (w.withHeap h).memoryHome n a = w.memoryHome n a := by
  induction n generalizing a with
  | zero => rfl
  | succ n ih =>
      obtain ⟨payload, hcontent⟩ := hlives a .refl
      have hsame : (w.withHeap h).source? a = w.source? a := by
        simp only [source?, tensor?_grown hgrown hcontent]
      cases hsource : w.source? a with
      | none =>
          rw [memoryHome_of_no_source hsource, memoryHome_of_no_source (hsame.trans hsource)]
      | some b =>
          rw [memoryHome_of_source hsource, memoryHome_of_source (hsame.trans hsource)]
          exact ih (hlives.step (refers_of_source hsource))

/-- The elements of a tensor stay when other objects have been made. -/
theorem Lives.tensorBytes (hlives : w.Lives a) (hacyclic : w.AcyclicAt a)
    (hgrown : Grown w.heap h) (hsize : w.heap.cells.size ≤ h.cells.size) (t : Tensor) :
    (w.withHeap h).tensorBytes a t = w.tensorBytes a t := by
  have hhome : (w.withHeap h).memoryHome h.cells.size a = w.memoryHome w.heap.cells.size a := by
    rw [hlives.memoryHome hgrown, memoryHome_of_nested hacyclic.nestedWithin hsize]
  obtain ⟨payload, hcontent⟩ := hlives _ (reaches_memoryHome w.heap.cells.size a)
  simp only [World.tensorBytes, memoryBytes, withHeap_heap, hhome, tensor?_grown hgrown hcontent]

/-! ## Numbers of the same objects in two worlds -/

section Same

/-- What is seen of fields in two worlds is the same as far as a property tells, and so is what is
seen of an object with these fields. -/
theorem shows_of_same {P : Value → Prop} (hP : ∀ y, P (w.showField y) ↔ P (v.showField y))
    (hschema : v.schemaOf? a = w.schemaOf? a) (hcontent : v.payload? a = w.payload? a)
    (h : ∃ attr ∈ w.shown a, P attr.value) : ∃ attr ∈ v.shown a, P attr.value := by
  cases hreflected : w.schemaOf? a with
  | none => simp [shown, attrs, hreflected, Except.toOption] at h
  | some schema =>
      simp only [shown, attrs_eq hreflected, attrs_eq (hschema.trans hreflected), hcontent,
        Except.toOption, Option.getD_some, ← List.map_uncurry_zip_eq_zipWith] at h ⊢
      obtain ⟨attr, hattr, hvalue⟩ := h
      obtain ⟨p, hp, rfl⟩ := List.mem_map.mp hattr
      exact ⟨_, List.mem_map_of_mem hp, (hP p.2).mp hvalue⟩

theorem showField_eq_float {x : Double} {y : Value} : w.showField y = .float x ↔ y = .float x := by
  cases y with
  | object tag id => simp [showField, Value.object?, showRef_some]
  | _ => rfl

theorem meets_of_same (hschema : v.schemaOf? a = w.schemaOf? a)
    (hcontent : v.payload? a = w.payload? a) (h : w.Meets a b) : v.Meets a b := by
  rcases meets_cases h with ⟨-, hattr⟩ |
    ⟨hnone, ⟨elems, helems, hb⟩ | ⟨entries, hentries, e, he, hb⟩⟩
  · obtain ⟨attr, hattr, hb⟩ := shows_of_same (P := fun value => value.object? = some b)
      (fun y => by rw [object?_showField, object?_showField]) hschema hcontent hattr
    exact meets_of_attr hattr hb
  · exact meets_of_element (hschema.trans hnone) (hcontent.trans helems) hb
  · exact meets_of_entry (hschema.trans hnone) (hcontent.trans hentries) he hb

/-- The objects of a graph have the same types and contents in two worlds. -/
def SameGraph (w v : World κ) (r : Ref) : Prop :=
  ∀ x, w.Met r x → v.schemaOf? x = w.schemaOf? x ∧ v.payload? x = w.payload? x

variable (hsame : SameGraph w v r)
include hsame

theorem met_of_same : v.Met r x ↔ w.Met r x := by
  constructor
  · rintro ⟨top, rfl, hreach⟩
    induction hreach with
    | refl => exact .root top
    | tail _ hstep ih =>
        obtain ⟨hschema, hcontent⟩ := hsame _ ih
        exact ih.step (meets_of_same hschema.symm hcontent.symm hstep)
  · rintro ⟨top, rfl, hreach⟩
    induction hreach with
    | refl => exact .root top
    | tail hreach hstep ih =>
        obtain ⟨hschema, hcontent⟩ := hsame _ ⟨top, rfl, hreach⟩
        exact ih.step (meets_of_same hschema hcontent hstep)

/-- Numbers are finite in both worlds or in neither. -/
theorem finiteFloats_of_same : v.FiniteFloats r ↔ w.FiniteFloats r := by
  have hfloats : ∀ y x, w.showField y = .float x ↔ v.showField y = .float x := fun y x => by
    rw [showField_eq_float, showField_eq_float]
  constructor
  · intro hfinite a ha attr hattr x hx
    obtain ⟨hschema, hcontent⟩ := hsame a ha
    obtain ⟨attr', hattr', hx'⟩ := shows_of_same (P := (· = .float x)) (fun y => hfloats y x) hschema
      hcontent ⟨attr, hattr, hx⟩
    exact hfinite a ((met_of_same hsame).mpr ha) attr' hattr' x hx'
  · intro hfinite a ha attr hattr x hx
    obtain ⟨hschema, hcontent⟩ := hsame a ((met_of_same hsame).mp ha)
    obtain ⟨attr', hattr', hx'⟩ := shows_of_same (P := (· = .float x)) (fun y => (hfloats y x).symm)
      hschema.symm hcontent.symm ⟨attr, hattr, hx⟩
    exact hfinite a ((met_of_same hsame).mp ha) attr' hattr' x hx'

end Same

/-- What is met in a graph is below its root. -/
theorem Met.below (h : w.Met r a) : w.Below r a := by
  obtain ⟨top, htop, hreach⟩ := h
  exact ⟨top, htop, hreach.lift id fun _ _ => refers_of_meets⟩

end World

end ObjectRuntime
