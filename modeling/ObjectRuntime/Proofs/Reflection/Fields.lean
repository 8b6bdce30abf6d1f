import ObjectRuntime.Proofs.NameTable
import ObjectRuntime.Proofs.Reflection.Nodes
set_option autoImplicit false

/-!
# Copies made of attributes

The texts of attributes are read in the order of the fields, whatever their own order is, and what
is read are copies of the values of the fields.
-/

namespace ObjectRuntime

open Heap (Grown Backed)
open World (CopyOf RefRel ValueCopy)

namespace Loading

open Build (Ready Onward Makes NewCopy Copied)
open Saving (Numbered AttrText)

variable {κ : Type} {w : World κ} {numbers : List (ObjId × Nat)} {id a b : ObjId}
  {g : GraphNode} {s s' : BuildState} {h h' : Heap κ} {resolve : Nat → Build κ Ref} {path : List Nat} {r : RefType}

/-! ## One field -/

/-- The value of a field has been copied, and what it refers to is held. -/
structure FieldMade (w : World κ) (numbers : List (ObjId × Nat)) (s : BuildState) (h : Heap κ)
    (x x' : Value) : Prop where
  copy : ValueCopy (Copied w numbers s h) x x'
  held : ∀ b, x'.object? = some b → b ∈ s.held

theorem FieldMade.onward {x x' : Value} (hx : FieldMade w numbers s h x x')
    (honward : Onward s h s' h') : FieldMade w numbers s' h' x x' where
  copy := hx.copy.mono fun _ _ _ _ hcopied => hcopied.onward honward
  held b hb := honward.held b (hx.held b hb)

/-- A type of references, with or without an option around it. -/
inductive RefersBy (r : RefType) : ValueType → Prop
  | ref : RefersBy r (.ref r)
  | option : RefersBy r (.option (.ref r))

theorem decodeRef_null (r : RefType) (v : World κ) : Run.decodeRef r .null v = (.ok none, v) := by
  cases r <;> rfl

/-- A field of references is read from nothing as nothing. -/
theorem makes_fieldOf_null {t : ValueType} (ht : RefersBy r t) (hready : Ready w numbers s h) :
    Makes w numbers (Build.fieldOf t .null) s h fun s h x' => FieldMade w numbers s h .null x' := by
  have hmade : FieldMade w numbers s h .null .null := ⟨.plain rfl rfl rfl, fun b hb => nomatch hb⟩
  cases ht with
  | ref =>
      exact ⟨.null, s, h, Build.taking_of_ok (decodeRef_null r _), hready, .refl s h, hmade⟩
  | option => exact ⟨.null, s, h, rfl, hready, .refl s h, hmade⟩

/-- A field of references is read from what travels for a copy as a copy. -/
theorem makes_fieldOf_copy {t : ValueType} {x : Value} (ht : RefersBy r t)
    (hready : Ready w numbers s h) (hx : x.isNull = false)
    (hstands : Build.StandsFor w numbers s a b)
    (hobtains : Run.Obtains w h s.held a b (Run.decodeRef r x)) :
    Makes w numbers (Build.fieldOf t x) s h
      fun s h x' => FieldMade w numbers s h (.object .object a) x' := by
  obtain ⟨c, h', hrun, hgrown, hsize, hbacked, hcopy, hc⟩ := hobtains
  have htaken : Ready w numbers { s with held := [c] ++ s.held } h' :=
    hready.take hgrown hsize hbacked
  have hcopied : Copied w numbers { s with held := [c] ++ s.held } h' a c := by
    refine ⟨hcopy, ?_⟩
    rcases hc with rfl | hloose
    · exact hstands
    · exact .inr hloose
  have hmade : FieldMade w numbers { s with held := [c] ++ s.held } h' (.object .object a)
      (.object .object c) := by
    refine ⟨.object hcopied, fun c' hc' => ?_⟩
    cases hc'
    exact List.mem_cons_self
  refine ⟨.object .object c, _, h', ?_, htaken, .take hgrown, hmade⟩
  cases ht with
  | ref => exact Build.taking_of_ok hrun
  | option =>
      have hdecode : Run.decode (.option (.ref r)) x (w.withHeap h) =
          (.ok (some (some c)), w.withHeap h') := by
        rw [Run.decode, hx]
        exact run_map_of_ok hrun
      exact Build.taking_of_ok hdecode

theorem isNull_classify (v : World κ) (id : ObjId) (moved : Bool) :
    (v.classify id moved).isNull = false := by
  rcases World.classify_cases v id moved with ⟨tag, hclassify⟩ | ⟨x, hboxed, hclassify⟩
  · rw [hclassify]
    rfl
  · rw [hclassify]
    simp only [World.boxed?, bind, Option.bind_eq_some_iff] at hboxed
    obtain ⟨payload, -, hx⟩ := hboxed
    split_ifs at hx
    all_goals
      obtain ⟨y, -, rfl⟩ := Option.map_eq_some_iff.mp hx
      rfl

theorem acceptsNull_of_refersBy {t : ValueType} (ht : RefersBy r t) : t.acceptsNull = true := by
  cases ht <;> rfl

/-- The number of a node is read from its text. -/
theorem parse_number {n : Nat} (hfits : IntKind.usize.Fits n) :
    IntKind.usize.parse (toString n) = .ok ⟨n, hfits⟩ :=
  IntKind.parse_toString (⟨n, hfits⟩ : MachineInt .usize)

/-- What the objects that an object holds have to be for a field to take copies of them. -/
def Takeable (w : World κ) (a : ObjId) : Prop :=
  w.types.Regular ∧ w.IsMade a ∧ w.ContainersKnown a

section

variable {t : ValueType} {x : Value} {text : String}
  (hready : Ready w numbers s h) (hresolve : Resolves w numbers resolve id path)
  (hpath : s.path = path)
  (hfits : ∀ a n, numbers.lookup a = some n → IntKind.usize.Fits n)
  (hrefers : ∀ a, x.object? = some a → w.Refers id a ∧ Takeable w a)
  (htype : w.HasType t x) (htext : AttrText (Numbered numbers) x text)
  (hback : ∀ y, x = .float y → y.ReadsBack)
  (htravels : ∀ y, x.object? = some y → w.Answered y Run.travelClasses)
include hready hresolve hpath hfits hrefers htype htext hback htravels

/-- The text of a reference is the number of a node, which is resolved. -/
theorem makes_fieldOf_ref (ht : RefersBy r t) :
    Makes w numbers (fieldOf resolve t text) s h fun s h x' => FieldMade w numbers s h x x' := by
  have hvalue : x = .null ∨ ∃ a, x = .object .object a ∧ w.HasRefType r a := by
    cases ht with
    | ref => exact htype
    | option => exact htype
  rw [fieldOf, if_pos (acceptsNull_of_refersBy ht)]
  rcases hvalue with rfl | ⟨a, rfl, hreftype⟩
  · cases htext
    rw [show IntKind.usize.parse "0" = .ok ⟨0, by decide⟩ by rfl]
    refine (hresolve s h none 0 hready hpath rfl fun _ hb => nomatch hb).bind ?_
    intro r' s₁ h₁ hready₁ honward₁ hr'
    cases r' with
    | some b => exact hr'.copy.elim
    | none =>
        have htravel := Run.travel_of_answered (w := w.withHeap h₁) (r := none)
          (fun _ hb => nomatch hb) false
        exact .looking htravel (makes_fieldOf_null ht hready₁)
  · cases htext with
    | @object _ _ n number =>
        obtain ⟨hheld, hregular, hmade, hknown⟩ := hrefers a rfl
        rw [parse_number (hfits a n number)]
        refine (hresolve s h (some a) n hready hpath number fun b hb => ?_).bind ?_
        · cases hb
          exact hheld
        intro r' s₁ h₁ hready₁ honward₁ hr'
        cases r' with
        | none => exact hr'.copy.elim
        | some b =>
            have hcopy : CopyOf w h₁ a b := hr'.copy
            have htravel := Run.travel_of_answered (w := w.withHeap h₁) (r := some b)
              (fun c hc => by cases hc; exact hcopy.answered (htravels a rfl)) false
            have hobtains := Run.obtains_decodeRef hregular hmade hknown hcopy hready₁.backed
              hready₁.base (hr'.held b rfl) hreftype
            exact .looking htravel
              (makes_fieldOf_copy ht hready₁ (isNull_classify _ b false) hr'.copied.2 hobtains)

/-- The text of an attribute is read as a copy of the value of its field. -/
theorem makes_fieldOf :
    Makes w numbers (fieldOf resolve t text) s h fun s h x' => FieldMade w numbers s h x x' := by
  cases hnull : t.acceptsNull with
  | true =>
      have hrefersBy : ∃ r, RefersBy r t := by
        cases t with
        | ref r => exact ⟨r, .ref⟩
        | option t =>
            cases t with
            | ref r => exact ⟨r, .option⟩
            | _ => exact htype.elim
        | variant => exact htype.elim
        | handle | unit | any => exact htype.elim
        | _ => cases hnull
      obtain ⟨r, ht⟩ := hrefersBy
      exact makes_fieldOf_ref hready hresolve hpath hfits hrefers htype htext hback htravels ht
  | false =>
      obtain ⟨x', hread, hx, hx', hsame⟩ := firstAccepted_of_hasType (s := s) (v := w.withHeap h)
        htype hnull htext hback
      have hrun : fieldOf resolve t text s (w.withHeap h) = ((.ok x', s), w.withHeap h) := by
        rw [fieldOf, hnull]
        exact hread
      exact ⟨x', s, h, hrun, hready, .refl s h, .plain hx hx' hsame, fun b hb => by
        rw [hx'] at hb
        cases hb⟩

end

/-! ## All fields -/

theorem blame_of_ok {body : Build κ Value} {x : Value} {v v' : World κ} {typeKey key : String}
    (hbody : body s v = ((.ok x, s'), v')) :
    Build.blame typeKey key body s v = ((.ok x, s'), v') := by
  simp only [Build.blame, hbody]

theorem keys_of_fieldTexts {num : Ref → Nat → Prop} {fields : List Field} {values : List Value}
    {texts : List (String × String)} (hspelled : FieldTexts w num fields values texts) :
    texts.map Prod.fst = fields.map Field.key := by
  induction hspelled with
  | nil => rfl
  | cons typed spelled back travels rest ih => rw [List.map_cons, List.map_cons, ih]

section

variable (hresolve : Resolves w numbers resolve id path)
  (hfits : ∀ a n, numbers.lookup a = some n → IntKind.usize.Fits n)
include hresolve hfits

/-- The values of all fields are copied, in whatever order their texts are given. -/
theorem makes_fieldsOf (typeKey : String) {fields : List Field} {values : List Value}
    {texts given : List (String × String)}
    (hspelled : FieldTexts w (Numbered numbers) fields values texts) (hperm : given.Perm texts)
    (hnodup : (fields.map Field.key).Nodup) (hready : Ready w numbers s h) (hpath : s.path = path)
    (hrefers : ∀ x ∈ values, ∀ a, x.object? = some a → w.Refers id a ∧ Takeable w a) :
    Makes w numbers (Build.fieldsOf typeKey (fieldOf resolve) fields given) s h
      fun s h values' => List.Forall₂ (FieldMade w numbers s h) values values' := by
  induction hspelled generalizing given s h with
  | nil =>
      have hnone : Build.fieldsOf typeKey (fieldOf resolve) [] given = pure [] := by
        simp [hperm.eq_nil, Build.fieldsOf, NameTable.sortedNames]
      rw [hnone]
      exact .pure hready List.Forall₂.nil
  | @cons f x text fields values texts typed spelled back travels rest ih =>
      obtain ⟨hx, hvalues⟩ := List.forall_mem_cons.mp hrefers
      obtain ⟨hnew, hnodup⟩ := List.nodup_cons.mp hnodup
      have hkeys := keys_of_fieldTexts rest
      have hgiven : (given.map Prod.fst).Nodup := by
        refine (hperm.map Prod.fst).nodup_iff.mpr (List.nodup_cons.mpr ?_)
        rw [hkeys]
        exact ⟨hnew, hnodup⟩
      have hlookup : given.lookup f.key = some text :=
        lookup_of_mem hgiven (hperm.mem_iff.mpr List.mem_cons_self)
      rw [Build.fieldsOf, hlookup]
      obtain ⟨x', s₁, h₁, hrun, hready₁, honward₁, hmade⟩ :=
        makes_fieldOf hready hresolve hpath hfits hx typed spelled back travels
      have hfield : Makes w numbers (Build.blame typeKey f.key (fieldOf resolve f.type text)) s h
          fun s h x' => FieldMade w numbers s h x x' :=
        ⟨x', s₁, h₁, blame_of_ok hrun, hready₁, honward₁, hmade⟩
      refine hfield.bind fun x' s₂ h₂ hready₂ honward₂ hmade₂ => ?_
      have hrest := ih (NameTable.erase_perm hperm (hkeys ▸ hnew)) hnodup hready₂
        (honward₂.path.trans hpath) hvalues
      refine hrest.bind fun values' s₃ h₃ hready₃ honward₃ hmade₃ => ?_
      exact .pure hready₃ (List.Forall₂.cons (hmade₂.onward honward₃) hmade₃)

end

/-- A node with attributes is made into an object of its class. -/
theorem makes_object_node {schema : Schema} {values : List Value}
    {texts : List (String × String)} {index : Nat} (hready : Ready w numbers s h)
    (hresolve : Resolves w numbers resolve id path) (hpath : s.path = path)
    (hfits : ∀ a n, numbers.lookup a = some n → IntKind.usize.Fits n)
    (hregular : w.types.Regular) (hclass : w.OfClass id schema.cls)
    (hreflected : w.schemaOf? id = some schema)
    (hown : schema.cls.key ∉ Inquiry.plainClasses.map ObjectClass.key)
    (hdistinct : (schema.visible.map Field.key).Nodup)
    (hcontent : w.payload? id = some (schema.payload values)) (hboxes : w.Reflecting)
    (hkey : g.typeKey = schema.cls.key)
    (hattrs : g.attrs = NameTable.sorted (NameTable.ofList texts))
    (hspelled : FieldTexts w (Numbered numbers) schema.visible values texts)
    (htakeable : ∀ a, w.Refers id a → Takeable w a) :
    Makes w numbers (object resolve index g) s h (NewCopy w numbers id) := by
  have hne : ∀ c ∈ Inquiry.plainClasses, g.typeKey ≠ c.key := by
    intro c hc heq
    exact hown (hkey ▸ heq ▸ List.mem_map_of_mem hc)
  have hperm : g.attrs.Perm texts := by
    rw [hattrs, NameTable.ofList_of_nodup]
    · exact NameTable.sorted_perm texts
    · rw [keys_of_fieldTexts hspelled]
      exact hdistinct
  have hrefers : ∀ x ∈ values, ∀ a, x.object? = some a → w.Refers id a ∧ Takeable w a := by
    intro x hx a ha
    have hheld : w.Refers id a := by
      refine ⟨_, hcontent, ?_⟩
      rw [Schema.references_payload]
      exact List.mem_filterMap.mpr ⟨x, hx, ha⟩
    exact ⟨hheld, htakeable a hheld⟩
  rw [object, if_neg (hne .string (by decide)), if_neg (hne .shapeTuple (by decide)),
    if_neg (hne .array (by decide)), if_neg (hne .map (by decide)),
    if_neg (hne .tensor (by decide)), Build.object]
  have hindex : Run.query (·.types.indexOf g.typeKey) (w.withHeap h) =
      (.ok (w.typeIndex id), w.withHeap h) := by
    refine query_ok ?_
    rw [World.withHeap_types, TypeTable.indexOf, hkey, hregular.index?_classIndex hclass]
  have hschema : (w.withHeap h).schemaAt? (w.typeIndex id) = some schema := hreflected
  have hfields := makes_fieldsOf hresolve hfits g.typeKey hspelled hperm hdistinct hready hpath
    hrefers
  refine .looking hindex (.looking (Run.useReflection_of_reflecting hboxes)
    (.looking (a := w.withHeap h) rfl ?_))
  rw [hschema]
  refine hfields.bind fun values' s' h' hready' _ hvalues => ?_
  refine Build.makes_make hready' hclass (.node schema values values' hreflected hcontent
    (hvalues.imp fun _ _ hx => hx.copy)) fun b hb => ?_
  rw [Schema.references_payload] at hb
  obtain ⟨x', hx', hb⟩ := List.mem_filterMap.mp hb
  obtain ⟨x, -, hx⟩ := exists_mem_of_forall₂ hvalues hx'
  exact hx.held b hb

end Loading

end ObjectRuntime
