import ObjectRuntime.Proofs.Lists
import ObjectRuntime.Proofs.Object.Counting
import ObjectRuntime.Proofs.Reflection.Content
set_option autoImplicit false

/-!
# Copies of objects

A copy of an object has its type and its content, with copies of the objects that it holds.
`World.CopyOf` is the greatest relation with this property, so it is there while copies are still
being made, and what is true of copies of copies need not be said.  Copies have the same content.
-/

namespace ObjectRuntime

open Heap (Grown)

/-! ## Contents of boxes and of nodes -/

namespace Schema

variable {κ : Type}

/-- The content of an object of a reflected class is a box or a list of values. -/
theorem payload_cases (schema : Schema) (values : List Value) :
    (schema.payload values : Payload κ) = .node values ∨
      (∃ n, values = [.int n] ∧ schema.cls = .boxInt ∧
        (schema.payload values : Payload κ) = .boxInt n) ∨
      (∃ x, values = [.float x] ∧ schema.cls = .boxFloat ∧
        (schema.payload values : Payload κ) = .boxFloat x) ∨
      ∃ b, values = [.bool b] ∧ schema.cls = .boxBool ∧
        (schema.payload values : Payload κ) = .boxBool b := by
  unfold payload
  split
  · split
    · exact .inr (.inl ⟨_, rfl, ‹_›, rfl⟩)
    · exact .inl rfl
  · split
    · exact .inr (.inr (.inl ⟨_, rfl, ‹_›, rfl⟩))
    · exact .inl rfl
  · split
    · exact .inr (.inr (.inr ⟨_, rfl, ‹_›, rfl⟩))
    · exact .inl rfl
  · exact .inl rfl

/-- The values that were put in are shown. -/
@[simp] theorem values_payload (schema : Schema) (values : List Value) :
    schema.values (schema.payload values : Payload κ) = values := by
  rcases payload_cases (κ := κ) schema values with
    h | ⟨n, rfl, hcls, h⟩ | ⟨x, rfl, hcls, h⟩ | ⟨b, rfl, hcls, h⟩
  · simp [h, Schema.values]
  · simp [h, Schema.values, hcls, Payload.int?]
  · simp [h, Schema.values, hcls, Payload.double?, show ObjectClass.boxFloat ≠ .boxInt by decide]
  · simp [h, Schema.values, hcls, Payload.bool?, show ObjectClass.boxBool ≠ .boxInt by decide,
      show ObjectClass.boxBool ≠ .boxFloat by decide]

/-- The objects that the content holds are the objects among the values. -/
theorem references_payload (schema : Schema) (values : List Value) :
    (schema.payload values : Payload κ).references = values.filterMap Value.object? := by
  rcases payload_cases (κ := κ) schema values with
    h | ⟨n, rfl, hcls, h⟩ | ⟨x, rfl, hcls, h⟩ | ⟨b, rfl, hcls, h⟩
  all_goals
    rw [h]
    rfl

end Schema

namespace World

variable {κ : Type} {w w' : World κ} {h h' : Heap κ} {a b id : ObjId}
  {R R' : ObjId → ObjId → Prop} {payload : Payload κ}

/-! ## Copies -/

/-- The value of a field and its copy. -/
inductive ValueCopy (R : ObjId → ObjId → Prop) : Value → Value → Prop
  | object {tag : ObjectTag} {a b : ObjId} (copy : R a b) :
      ValueCopy R (.object tag a) (.object tag b)
  | plain {v v' : Value} (hv : v.object? = none) (hv' : v'.object? = none)
      (same : SameValue v v') : ValueCopy R v v'

/-- An entry of a map and its copy. -/
def EntryCopy (R : ObjId → ObjId → Prop) (e e' : Ref × Ref) : Prop :=
  RefRel R e.1 e'.1 ∧ RefRel R e.2 e'.2

/-- The content of a copy of an object.  A copy of a tensor has memory of its own. -/
inductive PayloadCopy (w : World κ) (R : ObjId → ObjId → Prop) (a : ObjId) : Payload κ → Prop
  | text (s : String) (content : w.payload? a = some (.text s)) : PayloadCopy w R a (.text s)
  | shape (dims : List Int) (content : w.payload? a = some (.shape dims)) :
      PayloadCopy w R a (.shape dims)
  | array (elems elems' : List Ref) (content : w.payload? a = some (.array elems))
      (copies : List.Forall₂ (RefRel R) elems elems') : PayloadCopy w R a (.array elems')
  | map (entries entries' : List (Ref × Ref)) (content : w.payload? a = some (.map entries))
      (copies : List.Forall₂ (EntryCopy R) entries entries') : PayloadCopy w R a (.map entries')
  | tensor (t : Tensor) (unit : MachineInt .i32) (data : Bytes)
      (content : w.payload? a = some (.tensor t)) (bytes : w.tensorBytes a t = .ok data)
      (size : t.size = .ok data.length) :
      PayloadCopy w R a (.tensor ⟨t.shape, t.dtype, unit, 0, .owned data⟩)
  | node (schema : Schema) (values values' : List Value) (reflected : w.schemaOf? a = some schema)
      (content : w.payload? a = some (schema.payload values))
      (copies : List.Forall₂ (ValueCopy R) values values') :
      PayloadCopy w R a (schema.payload values')

/-- An object of the heap has the type of the other and the content of its copy. -/
def LocalCopy (w : World κ) (h : Heap κ) (R : ObjId → ObjId → Prop) (a b : ObjId) : Prop :=
  ∃ o, h.get? b = some o ∧ o.typeIndex = w.typeIndex a ∧ PayloadCopy w R a o.payload

/-- Every two objects that are related are copies, if those they hold are. -/
def Copying (w : World κ) (h : Heap κ) (R : ObjId → ObjId → Prop) : Prop :=
  ∀ a b, R a b → LocalCopy w h R a b

/-- An object of the heap is a copy of an object of the world. -/
def CopyOf (w : World κ) (h : Heap κ) (a b : ObjId) : Prop := ∃ R, R a b ∧ Copying w h R

theorem ValueCopy.mono {v v' : Value} (hv : ValueCopy R v v')
    (hR : ∀ a b, v.object? = some a → v'.object? = some b → R a b → R' a b) :
    ValueCopy R' v v' := by
  cases hv with
  | object copy => exact .object (hR _ _ rfl rfl copy)
  | plain hv hv' same => exact .plain hv hv' same

/-- The relation matters only for what the object and its copy hold. -/
theorem PayloadCopy.mono (hc : PayloadCopy w R a payload)
    (hR : ∀ x y, w.Refers a x → y ∈ payload.references → R x y → R' x y) :
    PayloadCopy w R' a payload := by
  cases hc with
  | text s content => exact .text s content
  | shape dims content => exact .shape dims content
  | array elems elems' content copies =>
      refine .array elems elems' content (forall₂_imp_mem copies fun r r' hr hr' hcopy => ?_)
      exact hcopy.mono fun x y hx hy => hR x y (refers_of_element content (hx ▸ hr))
        (List.reduceOption_mem_iff.mpr (hy ▸ hr'))
  | map entries entries' content copies =>
      refine .map entries entries' content (forall₂_imp_mem copies fun e e' he he' hcopy => ?_)
      have hheld : ∀ {pairs : List (Ref × Ref)} {e : Ref × Ref} {y}, e ∈ pairs →
          e.1 = some y ∨ e.2 = some y → y ∈ (.map pairs : Payload κ).references := by
        intro pairs e y he hy
        refine List.mem_flatMap.mpr ⟨e, he, ?_⟩
        rcases hy with hy | hy <;> simp [hy]
      exact ⟨hcopy.1.mono fun x y hx hy =>
          hR x y ⟨_, content, hheld he (.inl hx)⟩ (hheld he' (.inl hy)),
        hcopy.2.mono fun x y hx hy =>
          hR x y ⟨_, content, hheld he (.inr hx)⟩ (hheld he' (.inr hy))⟩
  | tensor t unit data content bytes size => exact .tensor t unit data content bytes size
  | node schema values values' reflected content copies =>
      refine .node schema values values' reflected content
        (forall₂_imp_mem copies fun v v' hv hv' hcopy => ?_)
      refine hcopy.mono fun x y hx hy => hR x y ⟨_, content, ?_⟩ ?_
      all_goals rw [Schema.references_payload]
      · exact List.mem_filterMap.mpr ⟨v, hv, hx⟩
      · exact List.mem_filterMap.mpr ⟨v', hv', hy⟩

theorem LocalCopy.mono (hc : LocalCopy w h R a b) (hgrown : Grown h h')
    (hR : ∀ x y, R x y → R' x y) : LocalCopy w h' R' a b := by
  obtain ⟨o, ho, htype, hcontent⟩ := hc
  obtain ⟨n, hn⟩ := hgrown b o ho
  exact ⟨_, hn, htype, hcontent.mono fun x y _ _ => hR x y⟩

namespace CopyOf

/-- What copies hold are copies. -/
theorem step (hc : CopyOf w h a b) : LocalCopy w h (CopyOf w h) a b := by
  obtain ⟨R, hR, hclosed⟩ := hc
  obtain ⟨o, ho, htype, hcontent⟩ := hclosed a b hR
  exact ⟨o, ho, htype, hcontent.mono fun x y _ _ hxy => ⟨R, hxy, hclosed⟩⟩

/-- What has the type and content of a copy is a copy. -/
theorem intro (hc : LocalCopy w h (CopyOf w h) a b) : CopyOf w h a b := by
  refine ⟨fun x y => CopyOf w h x y ∨ (x = a ∧ y = b), .inr ⟨rfl, rfl⟩, ?_⟩
  rintro x y (hxy | ⟨rfl, rfl⟩)
  · obtain ⟨o, ho, htype, hcontent⟩ := hxy.step
    exact ⟨o, ho, htype, hcontent.mono fun _ _ _ _ => .inl⟩
  · obtain ⟨o, ho, htype, hcontent⟩ := hc
    exact ⟨o, ho, htype, hcontent.mono fun _ _ _ _ => .inl⟩

/-- Copies stay copies while the heap grows. -/
theorem mono (hc : CopyOf w h a b) (hgrown : Grown h h') : CopyOf w h' a b := by
  obtain ⟨R, hR, hclosed⟩ := hc
  exact ⟨R, hR, fun x y hxy => (hclosed x y hxy).mono hgrown fun _ _ => id⟩

end CopyOf

/-! ## Copies have the same content -/

/-- An attribute and its copy. -/
def AttrCopy (R : ObjId → ObjId → Prop) (attr attr' : Attr) : Prop :=
  SameAttr attr attr' ∧ RefRel R attr.value.object? attr'.value.object?

/-- A content that is no box and no list of values shows no attributes. -/
theorem shown_of_values_nil {content : Payload κ} (hcontent : w.payload? a = some content)
    (hvalues : ∀ schema : Schema, schema.values content = []) : w.shown a = [] := by
  cases hschema : w.schemaOf? a with
  | none => simp [shown, attrs, hschema, Except.toOption]
  | some schema => simp [shown, attrs_eq hschema, hcontent, hvalues, Except.toOption]

theorem values_text (schema : Schema) (s : String) :
    schema.values (.text s : Payload κ) = [] := by
  simp [Schema.values, Payload.int?, Payload.double?, Payload.bool?]

theorem values_shape (schema : Schema) (dims : List Int) :
    schema.values (.shape dims : Payload κ) = [] := by
  simp [Schema.values, Payload.int?, Payload.double?, Payload.bool?]

theorem values_array (schema : Schema) (elems : List Ref) :
    schema.values (.array elems : Payload κ) = [] := by
  simp [Schema.values, Payload.int?, Payload.double?, Payload.bool?]

theorem values_map (schema : Schema) (entries : List (Ref × Ref)) :
    schema.values (.map entries : Payload κ) = [] := by
  simp [Schema.values, Payload.int?, Payload.double?, Payload.bool?]

theorem values_tensor (schema : Schema) (t : Tensor) :
    schema.values (.tensor t : Payload κ) = [] := by
  simp [Schema.values, Payload.int?, Payload.double?, Payload.bool?]

/-- An object of a reflected class is no string, shape or tensor and holds no elements or entries. -/
theorem nothing_plain {schema : Schema} {values : List Value}
    (hcontent : w.payload? a = some (schema.payload values)) :
    w.text? a = none ∧ w.shape? a = none ∧ w.tensor? a = none ∧ w.elements (some a) = [] ∧
      w.entries (some a) = [] := by
  rcases Schema.payload_cases (κ := κ) schema values with
    h | ⟨n, -, -, h⟩ | ⟨x, -, -, h⟩ | ⟨b, -, -, h⟩
  all_goals simp [text?, shape?, tensor?, elements, entries, hcontent, h]

/-- The tag with which an object is shown. -/
def showTag (w : World κ) (id : ObjId) : ObjectTag :=
  if w.isInstance id .tensor then .tensor
  else if w.isInstance id .module then .module
  else if w.isInstance id .function then .function
  else .object

theorem showRef_some (w : World κ) (id : ObjId) :
    w.showRef (some id) = .object (w.showTag id) id := by
  simp only [showRef, classify, showTag]
  split_ifs with htensor hmodule hfunction
  · rfl
  · rfl
  · rfl
  · contradiction
  · cases hbox : w.boxed? id with
    | none => rfl
    | some v =>
        have hv := object?_of_boxed? hbox
        cases v with
        | object => cases hv
        | _ => rfl

/-- Two worlds agree on the classes. -/
structure SameClasses (w w' : World κ) : Prop where
  types : w'.types = w.types
  schemas : w'.schemas = w.schemas

section

variable (hclasses : SameClasses w w') (htype : w'.typeIndex b = w.typeIndex a)
include hclasses htype

theorem SameClasses.isInstance (c : ObjectClass) : w'.isInstance b c = w.isInstance a c := by
  simp only [World.isInstance, hclasses.types, htype]

theorem SameClasses.typeKey : w.typeKey a = w'.typeKey b := by
  simp only [World.typeKey, hclasses.types, htype]

theorem SameClasses.schemaOf? : w'.schemaOf? b = w.schemaOf? a := by
  simp only [World.schemaOf?, schemaAt?, hclasses.types, hclasses.schemas, htype]

theorem SameClasses.showTag : w'.showTag b = w.showTag a := by
  simp only [World.showTag, hclasses.isInstance htype]

end

/-- A field and its copy are shown as the same. -/
theorem SameClasses.showField (hclasses : SameClasses w w')
    (htypes : ∀ x y, R x y → w'.typeIndex y = w.typeIndex x) {v v' : Value}
    (hv : ValueCopy R v v') :
    SameValue (w.showField v) (w'.showField v') ∧
      RefRel R (w.showField v).object? (w'.showField v').object? := by
  cases hv with
  | object copy =>
      simp only [World.showField, Value.object?, showRef_some]
      exact ⟨(hclasses.showTag (htypes _ _ copy)).symm, copy⟩
  | plain hv hv' same =>
      simp only [World.showField, hv, hv']
      exact ⟨same, trivial⟩

/-- Attributes of copies are copies. -/
theorem SameClasses.shown (hclasses : SameClasses w w')
    (htypes : ∀ x y, R x y → w'.typeIndex y = w.typeIndex x) {schema : Schema}
    {values values' : List Value} (hschema : w.schemaOf? a = some schema)
    (hschema' : w'.schemaOf? b = some schema)
    (hcontent : w.payload? a = some (schema.payload values))
    (hcontent' : w'.payload? b = some (schema.payload values'))
    (hvalues : List.Forall₂ (ValueCopy R) values values') :
    List.Forall₂ (AttrCopy R) (w.shown a) (w'.shown b) := by
  simp only [World.shown, attrs_eq hschema, attrs_eq hschema', hcontent, hcontent',
    Option.map_some, Option.getD_some, Schema.values_payload, Except.toOption]
  generalize schema.visible = fields
  clear hcontent hcontent'
  induction hvalues generalizing fields with
  | nil => simp
  | cons hv _ ih =>
      cases fields with
      | nil => simp
      | cons f fields =>
          obtain ⟨hsame, hheld⟩ := hclasses.showField htypes hv
          exact .cons ⟨⟨rfl, rfl, hsame⟩, hheld⟩ (ih fields)

/-- Lists of copies hold copies at the same positions. -/
theorem heldRel_getElem? {rs rs' : List Ref} (hrs : List.Forall₂ (RefRel R) rs rs') (i : Nat) :
    HeldRel R rs[i]? rs'[i]? := by
  induction hrs generalizing i with
  | nil => exact trivial
  | cons hr _ ih =>
      cases i with
      | zero => exact hr
      | succ i => exact ih i

theorem heldRel_find? {attrs attrs' : List Attr} (hattrs : List.Forall₂ (AttrCopy R) attrs attrs')
    (name : String) :
    HeldRel R ((attrs.find? fun attr => attr.key == name).map fun attr => attr.value.object?)
      ((attrs'.find? fun attr => attr.key == name).map fun attr => attr.value.object?) := by
  induction hattrs with
  | nil => exact trivial
  | @cons attr attr' _ _ hattr _ ih =>
      simp only [List.find?_cons, hattr.1.1]
      split
      · exact hattr.2
      · exact ih

/-- What is seen of an object and what it holds, part by part. -/
structure SameParts (w w' : World κ) (R : ObjId → ObjId → Prop) (a b : ObjId) : Prop where
  text : w.text? a = w'.text? b
  shape : w.shape? a = w'.shape? b
  tensor : w.tensorContent? a = w'.tensorContent? b
  attrs : List.Forall₂ (AttrCopy R) (w.shown a) (w'.shown b)
  elements : List.Forall₂ (RefRel R) (w.elements (some a)) (w'.elements (some b))
  entries : List.Forall₂ (EntryCopy R) (w.entries (some a)) (w'.entries (some b))

theorem SameParts.copies (hparts : SameParts w w' R a b) (hkey : w.typeKey a = w'.typeKey b) :
    Copies w w' R a b where
  looks := ⟨hkey, hparts.text, hparts.shape, hparts.tensor, hparts.attrs.imp fun _ _ => And.left⟩
  held
    | .attr name => heldRel_find? hparts.attrs name
    | .element i => heldRel_getElem? hparts.elements i
    | .key i => by
        have hkeys : List.Forall₂ (RefRel R) ((w.entries (some a)).map (·.1))
            ((w'.entries (some b)).map (·.1)) := by
          rw [List.forall₂_map_left_iff, List.forall₂_map_right_iff]
          exact hparts.entries.imp fun _ _ => And.left
        simpa only [heldAt, List.getElem?_map] using heldRel_getElem? hkeys i
    | .value i => by
        have hvalues : List.Forall₂ (RefRel R) ((w.entries (some a)).map (·.2))
            ((w'.entries (some b)).map (·.2)) := by
          rw [List.forall₂_map_left_iff, List.forall₂_map_right_iff]
          exact hparts.entries.imp fun _ _ => And.right
        simpa only [heldAt, List.getElem?_map] using heldRel_getElem? hvalues i

/-- A copied tensor owns the bytes of its elements. -/
theorem tensorBytes_owned {t : Tensor} {unit : MachineInt .i32} {data : Bytes}
    (hcontent : w.payload? b = some (.tensor ⟨t.shape, t.dtype, unit, 0, .owned data⟩))
    (hsize : t.size = .ok data.length) :
    w.tensorBytes b ⟨t.shape, t.dtype, unit, 0, .owned data⟩ = .ok data := by
  have hhome : w.memoryHome w.heap.cells.size b = b := by
    cases w.heap.cells.size with
    | zero => rfl
    | succ fuel => simp [memoryHome, tensor?, hcontent]
  have hbytes : w.memoryBytes b = data := by
    simp [memoryBytes, hhome, tensor?, hcontent]
  have hsize' : Tensor.size ⟨t.shape, t.dtype, unit, 0, .owned data⟩ = .ok data.length := hsize
  rw [tensorBytes, hsize', hbytes]
  simp [bind, Except.bind, pure, Except.pure]

theorem typeIndex_of_copying (hcopying : Copying w w'.heap R) (hR : R a b) :
    w'.typeIndex b = w.typeIndex a := by
  obtain ⟨o, ho, htype, -⟩ := hcopying a b hR
  simpa [typeIndex, ho] using htype

/-- Parts of copies are copies. -/
theorem sameParts_of_copying (hclasses : SameClasses w w') (hcopying : Copying w w'.heap R)
    (hR : R a b) : SameParts w w' R a b := by
  have htype := typeIndex_of_copying hcopying hR
  obtain ⟨⟨i, n, payload⟩, ho, -, hcopy⟩ := hcopying a b hR
  have hpayload : w'.payload? b = some payload := by simp [payload?, ho]
  cases hcopy with
  | text s content =>
      exact {
        text := by simp [text?, content, hpayload]
        shape := by simp [shape?, content, hpayload]
        tensor := by simp [tensorContent?, tensor?, content, hpayload]
        attrs := by
          rw [shown_of_values_nil content (values_text · s),
            shown_of_values_nil hpayload (values_text · s)]
          exact .nil
        elements := by simp [elements, content, hpayload]
        entries := by simp [entries, content, hpayload] }
  | shape dims content =>
      exact {
        text := by simp [text?, content, hpayload]
        shape := by simp [shape?, content, hpayload]
        tensor := by simp [tensorContent?, tensor?, content, hpayload]
        attrs := by
          rw [shown_of_values_nil content (values_shape · dims),
            shown_of_values_nil hpayload (values_shape · dims)]
          exact .nil
        elements := by simp [elements, content, hpayload]
        entries := by simp [entries, content, hpayload] }
  | array elems elems' content copies =>
      exact {
        text := by simp [text?, content, hpayload]
        shape := by simp [shape?, content, hpayload]
        tensor := by simp [tensorContent?, tensor?, content, hpayload]
        attrs := by
          rw [shown_of_values_nil content (values_array · elems),
            shown_of_values_nil hpayload (values_array · elems')]
          exact .nil
        elements := by simpa [elements, content, hpayload] using copies
        entries := by simp [entries, content, hpayload] }
  | map pairs pairs' content copies =>
      exact {
        text := by simp [text?, content, hpayload]
        shape := by simp [shape?, content, hpayload]
        tensor := by simp [tensorContent?, tensor?, content, hpayload]
        attrs := by
          rw [shown_of_values_nil content (values_map · pairs),
            shown_of_values_nil hpayload (values_map · pairs')]
          exact .nil
        elements := by simp [elements, content, hpayload]
        entries := by simpa [entries, content, hpayload] using copies }
  | tensor t unit data content bytes size =>
      exact {
        text := by simp [text?, content, hpayload]
        shape := by simp [shape?, content, hpayload]
        tensor := by
          simp [tensorContent?, tensor?, content, hpayload, bytes, tensorBytes_owned hpayload size]
        attrs := by
          rw [shown_of_values_nil content (values_tensor · t),
            shown_of_values_nil hpayload (values_tensor · _)]
          exact .nil
        elements := by simp [elements, content, hpayload]
        entries := by simp [entries, content, hpayload] }
  | node schema values values' reflected content copies =>
      have hschema := (hclasses.schemaOf? htype).trans reflected
      obtain ⟨text, shape, tensor, elements, entries⟩ := nothing_plain content
      obtain ⟨text', shape', tensor', elements', entries'⟩ := nothing_plain hpayload
      exact {
        text := text.trans text'.symm
        shape := shape.trans shape'.symm
        tensor := by rw [tensorContent?, tensorContent?, tensor, tensor', Option.map_none, Option.map_none]
        attrs := hclasses.shown (fun _ _ => typeIndex_of_copying hcopying) reflected hschema content
          hpayload copies
        elements := by
          rw [elements, elements']
          exact .nil
        entries := by
          rw [entries, entries']
          exact .nil }

/-- Copies look the same and hold copies. -/
theorem copies_of_copying (hclasses : SameClasses w w') (hcopying : Copying w w'.heap R)
    (hR : R a b) : Copies w w' R a b :=
  (sameParts_of_copying hclasses hcopying hR).copies
    (hclasses.typeKey (typeIndex_of_copying hcopying hR))

end World

end ObjectRuntime
