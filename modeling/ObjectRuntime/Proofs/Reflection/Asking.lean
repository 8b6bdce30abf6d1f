import ObjectRuntime.Proofs.Reflection.Fields
import Mathlib.Data.List.Find
set_option autoImplicit false

/-!
# Graphs of which questions have been asked

Looking classes up changes no object, and what an object was of before it is of afterwards.  So a
graph that is well made stays so, and its objects keep their types, schemas and contents.
-/

namespace ObjectRuntime

open Relation (ReflTransGen)

namespace TypeTable

variable {t t' : TypeTable} {c c' : ObjectClass} {i : Nat}

/-- A class that is found at the index of another one later was found there before. -/
theorem Later.classIndex?_of_classIndex? (h : Later t t') (hc : t.classIndex? c = some i)
    (hkey : c'.key ≠ ObjectClass.rootKey) (hc' : t'.classIndex? c' = some i) :
    t.classIndex? c' = some i := by
  have hsame := h.regular.key_injective (h.classIndex? hc) hc'
  cases c' with
  | root => exact absurd rfl hkey
  | derived decl base =>
      cases c with
      | root => exact absurd hsame.symm hkey
      | derived decl' base' =>
          have hknown : t.known.lookup decl'.key = some i := hc
          rwa [show decl'.key = decl.key from hsame] at hknown

end TypeTable

namespace World

variable {κ : Type} {w v : World κ} {a b id : ObjId} {c : ObjectClass} {r : Ref} {t : RefType}

/-! ## One object -/

namespace Asked

theorem ofClass (h : Asked w v) (hclass : w.OfClass id c) : v.OfClass id c := by
  rw [OfClass, h.typeIndex]
  exact h.later.classIndex? hclass

/-- An object of a class has a type with the key of the class. -/
theorem typeKey (h : Asked w v) (hregular : w.types.Regular) (hclass : w.OfClass id c) :
    v.typeKey id = w.typeKey id := by
  obtain ⟨e, he, -⟩ := hregular.typeAt?_classIndex hclass
  rw [World.typeKey, h.typeIndex, h.later.showKey he, World.typeKey]

/-- What stands at the index of a class goes on standing there. -/
theorem schemaAt? (h : Asked w v) {i : Nat} (hclass : w.types.classIndex? c = some i) :
    v.schemaAt? i = w.schemaAt? i := by
  have hboxes : ∀ s ∈ Schema.builtins, s.cls.key ≠ ObjectClass.rootKey := by decide
  have hsame : ∀ s ∈ Schema.builtins.reverse,
      (v.types.classIndex? s.cls == some i) = (w.types.classIndex? s.cls == some i) := by
    intro s hs
    rw [Bool.eq_iff_iff, beq_iff_eq, beq_iff_eq]
    constructor
    · exact h.later.classIndex?_of_classIndex? hclass (hboxes s (List.mem_reverse.mp hs))
    · exact h.later.classIndex?
  simp only [World.schemaAt?, h.schemas]
  rw [List.find?_congr hsame]

theorem schemaOf? (h : Asked w v) (hclass : w.OfClass id c) : v.schemaOf? id = w.schemaOf? id := by
  rw [World.schemaOf?, h.typeIndex, h.schemaAt? hclass, World.schemaOf?]

theorem text? (h : Asked w v) (id : ObjId) : v.text? id = w.text? id := by
  simp only [World.text?, h.payload?]

theorem sameKey (h : Asked w v) (k k' : Ref) : v.sameKey k k' = w.sameKey k k' := by
  simp only [World.sameKey, funext h.text?]

theorem tensor? (h : Asked w v) (id : ObjId) : v.tensor? id = w.tensor? id := by
  simp only [World.tensor?, h.payload?]

theorem tensorBytes (h : Asked w v) (id : ObjId) (t : Tensor) :
    v.tensorBytes id t = w.tensorBytes id t :=
  tensorBytes_congr (by rw [h.heap]) h.tensor? id t

theorem isInstance (h : Asked w v) (hinstance : w.isInstance id c = true) :
    v.isInstance id c = true := by
  unfold World.isInstance at hinstance ⊢
  cases hfirst : w.types.classIndex? c with
  | none => simp [hfirst] at hinstance
  | some first =>
      rw [hfirst] at hinstance
      rw [h.later.classIndex? hfirst, h.typeIndex]
      exact h.later.isInstance hinstance

/-- A check against a static type that has passed passes again. -/
theorem mismatch? (h : Asked w v) (hchecked : w.mismatch? t r = none) : v.mismatch? t r = none := by
  induction t generalizing r with
  | named name cls =>
      cases r with
      | none => exact mismatch?_none v _
      | some a => simp [World.mismatch?, h.isInstance (isInstance_of_named hchecked)]
  | array elem ih =>
      cases r with
      | none => exact mismatch?_none v _
      | some a =>
          obtain ⟨elems, hcontent⟩ := array_of_checked hchecked
          simp only [World.mismatch?, hcontent, Option.map_eq_none_iff,
            firstMismatch_eq_none] at hchecked
          simp only [World.mismatch?, (h.payload? a).trans hcontent, Option.map_eq_none_iff,
            firstMismatch_eq_none]
          exact fun r hr => ih (hchecked r hr)
  | map key value ihKey ihValue =>
      cases r with
      | none => exact mismatch?_none v _
      | some a =>
          obtain ⟨entries, hcontent⟩ := map_of_checked hchecked
          rw [mismatch?_map_eq_none hcontent] at hchecked
          rw [mismatch?_map_eq_none ((h.payload? a).trans hcontent)]
          exact fun e he => ⟨ihKey (hchecked e he).1, ihValue (hchecked e he).2⟩

end Asked

/-! ## What objects are made of -/

theorem plainClass?_payload (schema : Schema) (values : List Value) :
    plainClass? (schema.payload values : Payload κ) = none := by
  rcases Schema.payload_cases (κ := κ) schema values with
    h | ⟨n, -, -, h⟩ | ⟨x, -, -, h⟩ | ⟨b, -, -, h⟩
  all_goals
    rw [h]
    rfl

/-- The content of an object tells its class, if no reflected class has such contents. -/
theorem IsMade.ofClass (hmade : w.IsMade a) {content : Payload κ}
    (hcontent : w.payload? a = some content) (hclass : plainClass? content = some c) :
    w.OfClass a c := by
  cases hmade with
  | node schema values cls reflected own distinct made =>
      obtain rfl := Option.some.inj (hcontent.symm.trans made)
      rw [plainClass?_payload] at hclass
      cases hclass
  | text _ cls made | shape _ cls made | array _ cls made | map _ cls made | tensor _ cls made =>
      obtain rfl := Option.some.inj (hcontent.symm.trans made)
      cases hclass
      exact cls

/-- The class of a static type is known when an object is of the type. -/
theorem HasRefType.classIndex? (htype : w.HasRefType t a) (hmade : w.IsMade a) :
    ∃ first, w.types.classIndex? t.cls = some first := by
  cases t with
  | named name cls =>
      obtain ⟨first, hfirst, -⟩ := answered_of_isInstance (isInstance_of_named htype.checked)
      exact ⟨first, hfirst⟩
  | array elem =>
      obtain ⟨elems, hcontent⟩ := array_of_checked htype.checked
      exact ⟨_, hmade.ofClass hcontent rfl⟩
  | map key value =>
      obtain ⟨entries, hcontent⟩ := map_of_checked htype.checked
      exact ⟨_, hmade.ofClass hcontent rfl⟩

namespace Asked

theorem hasRefType (h : Asked w v) (hmade : w.IsMade id) (htype : w.HasRefType t id) :
    v.HasRefType t id where
  checked := h.mismatch? htype.checked
  descends first hfirst := by
    obtain ⟨known, hknown⟩ := htype.classIndex? hmade
    obtain rfl := Option.some.inj ((h.later.classIndex? hknown).symm.trans hfirst)
    rw [h.typeIndex]
    exact h.later.derivedFrom (htype.descends known hknown)

theorem hasType (h : Asked w v) {type : ValueType} {x : Value}
    (hmade : ∀ y, x.object? = some y → w.IsMade y) (htype : w.HasType type x) :
    v.HasType type x := by
  have href : ∀ {r : RefType}, (x = .null ∨ ∃ id, x = .object .object id ∧ w.HasRefType r id) →
      x = .null ∨ ∃ id, x = .object .object id ∧ v.HasRefType r id := by
    rintro r (rfl | ⟨id, rfl, hid⟩)
    · exact .inl rfl
    · exact .inr ⟨id, rfl, h.hasRefType (hmade id rfl) hid⟩
  cases type with
  | ref r => exact href htype
  | option type =>
      cases type with
      | ref r => exact href htype
      | _ => exact htype.elim
  | _ => cases x <;> exact htype

theorem isMade (h : Asked w v) (hbelow : ∀ y, w.Refers id y → w.IsMade y) (hmade : w.IsMade id) :
    v.IsMade id := by
  have hcontent := h.payload? id
  cases hmade with
  | text s cls content => exact .text s (h.ofClass cls) (hcontent.trans content)
  | shape dims cls content fits => exact .shape dims (h.ofClass cls) (hcontent.trans content) fits
  | array elems cls content => exact .array elems (h.ofClass cls) (hcontent.trans content)
  | map entries cls content distinct =>
      refine .map entries (h.ofClass cls) (hcontent.trans content) (distinct.imp fun hkeys => ?_)
      rwa [h.sameKey]
  | tensor t cls content whole =>
      obtain ⟨data, hbytes, hmemory⟩ := whole.memory
      exact .tensor t (h.ofClass cls) (hcontent.trans content)
        ⟨whole.rank, whole.dims, data, (h.tensorBytes id t).trans hbytes, hmemory⟩
  | node schema values cls reflected own distinct content typed =>
      refine .node schema values (h.ofClass cls) ((h.schemaOf? cls).trans reflected) own distinct
        (hcontent.trans content) (forall₂_imp_mem typed fun f x _ hx htype => ?_)
      refine h.hasType (fun y hy => hbelow y ⟨_, content, ?_⟩) htype
      rw [Schema.references_payload]
      exact List.mem_filterMap.mpr ⟨x, hx, hy⟩

theorem refers (h : Asked w v) : v.Refers = w.Refers := by
  funext a b
  simp only [Refers, h.payload?]

theorem below (h : Asked w v) : v.Below r id ↔ w.Below r id := by
  simp only [Below, h.refers]

/-- What is well made stays so. -/
theorem wellMade (h : Asked w v) (hmade : w.WellMade r) : v.WellMade r where
  regular := h.later.regular
  made id hid := by
    obtain ⟨a, ha, hreach⟩ := h.below.mp hid
    exact h.isMade (fun y hy => hmade.made y ⟨a, ha, hreach.tail hy⟩)
      (hmade.made id ⟨a, ha, hreach⟩)
  acyclic a ha := by
    rw [AcyclicAt, h.refers]
    exact hmade.acyclic a ha

end Asked

/-- The classes of the containers in a well made graph are known. -/
theorem WellMade.containersKnown (hmade : w.WellMade r) (ha : w.Below r a) :
    w.ContainersKnown a := by
  obtain ⟨top, htop, hreach⟩ := ha
  intro x hx
  have hx := hmade.made x ⟨top, htop, hreach.trans hx⟩
  exact ⟨fun _ hcontent => hx.ofClass hcontent rfl, fun _ hcontent => hx.ofClass hcontent rfl⟩

/-- Fields can take copies of the objects of a well made graph. -/
theorem WellMade.takeable (hmade : w.WellMade r) (ha : w.Below r a) : Loading.Takeable w a :=
  ⟨hmade.regular, hmade.made a ha, hmade.containersKnown ha⟩

end World

end ObjectRuntime
