import ObjectRuntime.Proofs.Container.Box
import ObjectRuntime.Proofs.Function.Returning
import ObjectRuntime.Proofs.Reflection.Creation
import ObjectRuntime.Proofs.Reflection.Growth
set_option autoImplicit false

/-!
# Objects made of the attributes of others

An object of a reflected class that is made of the attributes that another object of the class shows
shows the same attributes (`createObject_of_visited`): what a field shows converts to what the field
holds.  Together with what `Creation.Fails` says this is all there is to say about making objects
(`createObject_exact`).
-/

namespace ObjectRuntime

open World (Balanced Proceeds Since)

variable {κ : Type} {P : κ → Prop} {w v u : World κ} {others held : List ObjId} {o a b : ObjId}
  {schema : Schema} {index : Nat}

/-! ## What fields hold -/

/-- Fields have plain values, and references with or without an option around them. -/
def ValueType.isField : ValueType → Bool
  | .int k => k ∈ [.i8, .i16, .i32, .i64, .u8, .u16, .u32]
  | .f32 | .f64 | .bool | .text | .dataType | .device | .ref _ | .option (.ref _) => true
  | _ => false

/-- The references in a member of a type of fields are to objects of their static types. -/
def World.FitsType (w : World κ) : (t : ValueType) → t.Carrier → Prop
  | .ref r, x => ∀ a, x = some a → w.mismatch? r (some a) = none ∧ w.isInstance a r.cls = true
  | .option t, some x => w.FitsType t x
  | _, _ => True

/-- The value is that of a member of the type of the field. -/
def World.FitsField (w : World κ) (f : Field) (v : Value) : Prop :=
  f.type.isField = true ∧ ∃ x : f.type.Carrier, v = f.type.fieldValue x ∧ w.FitsType f.type x

/-- The object is of a reflected class.  Its fields that are shown have the values; what it keeps in
skipped fields stands behind them. -/
structure World.HasFields (w : World κ) (o : ObjId) (schema : Schema) (values hidden : List Value) :
    Prop where
  reflects : w.Reflects schema (w.typeIndex o)
  content : (w.payload? o).map schema.values = some (values ++ hidden)
  members : List.Forall₂ w.FitsField schema.visible values

/-- A number of a field is kept by a value. -/
theorem MachineInt.val_wrap_of_isField {k : IntKind} (hk : (ValueType.int k).isField = true)
    (n : MachineInt k) : (MachineInt.wrap .i64 n.val).val = n.val := by
  have hmax : k.max ≤ IntKind.i64.max := by
    revert hk
    cases k <;> decide
  exact val_of_ofInt?_eq_some (ofInt?_of_le (n.fits.2.trans hmax))

/-- A member of a type of fields refers to what the value of the field carries. -/
theorem ValueType.references_of_isField {t : ValueType} (ht : t.isField = true) (x : t.Carrier) :
    t.references x = (t.fieldValue x).object?.toList := by
  have href : ∀ x : Ref, x.toList = (Value.ofRef .object x).object?.toList := by
    intro x
    cases x <;> rfl
  cases t with
  | ref r => exact href x
  | option t =>
      cases t with
      | ref r =>
          cases x with
          | none => rfl
          | some x => exact href x
      | _ => cases ht
  | any | variant => cases ht
  | _ => rfl

theorem ValueType.forall_references {t : ValueType} {p : ObjId → Prop} (ht : t.isField = true)
    {x : t.Carrier} (h : ∀ a, (t.fieldValue x).object? = some a → p a) :
    ∀ a ∈ t.references x, p a := by
  intro a ha
  rw [references_of_isField ht] at ha
  exact h a (Option.mem_toList.mp ha)

/-- What fits a field fits it as long as it is held. -/
theorem World.FitsType.later {t : ValueType} {x : t.Carrier} (hx : v.FitsType t x)
    (hproceeds : v.Proceeds others u) (hb : v.Balanced P others)
    (hreach : ∀ a ∈ t.references x, v.heap.Reachable others a) : u.FitsType t x := by
  induction t with
  | ref r =>
      intro a ha
      have hreachable : v.heap.Reachable others a := hreach a (by simp [ValueType.references, ha])
      obtain ⟨hchecked, hmember⟩ := hx a ha
      refine ⟨hproceeds.checked hb (fun _ h => h) ?_ hchecked,
        hproceeds.isInstance hb (fun _ h => h) hreachable hmember⟩
      rintro b hab
      cases hab
      exact hreachable
  | option t ih =>
      cases x with
      | none => trivial
      | some x => exact ih hx hreach
  | _ => trivial

namespace Run

/-- What a field shows converts to what it holds. -/
theorem decode_showField {t : ValueType} (ht : t.isField = true) {x : t.Carrier}
    (hx : u.FitsType t x) (hregular : u.types.Regular) (hb : u.Balanced P others)
    (hreach : ∀ a ∈ t.references x, u.heap.Reachable others a) (w : World κ) :
    ∃ (y : t.Carrier) (u' : World κ), decode t (w.showField (t.fieldValue x)) u = (.ok y, u') ∧
      t.fieldValue y = t.fieldValue x ∧ u'.types = u.types := by
  have href : ∀ {r : RefType} {x : Ref},
      (∀ a, x = some a → u.mismatch? r (some a) = none ∧ u.isInstance a r.cls = true) →
      (∀ a ∈ x.toList, u.heap.Reachable others a) →
      ∃ u' : World κ, decodeRef r (w.showField (.ofRef .object x)) u = (.ok x, u') ∧
        u'.types = u.types := by
    intro r x hx hreach
    cases x with
    | none => exact ⟨u, Loading.decodeRef_null r u, rfl⟩
    | some a =>
        obtain ⟨hchecked, hmember⟩ := hx a rfl
        simp only [Value.ofRef, World.showField, Value.object?, World.showRef_some]
        exact ⟨_, World.decodeRef_object hchecked hmember _ hregular hb (hreach a (by simp)), rfl⟩
  cases t with
  | int k =>
      have hdecode : u.decodeInt k (.int (MachineInt.wrap .i64 x.val)) = .ok x := by
        unfold World.decodeInt
        simp [World.unboxed, Value.object?, MachineInt.val_wrap_of_isField ht]
      exact ⟨x, u, ofExcept_eq_ok.mpr ⟨hdecode, rfl⟩, rfl, rfl⟩
  | f32 =>
      exact ⟨x.toDouble.toSingle, u, rfl, by rw [ValueType.fieldValue,
        Single.toDouble_toSingle_toDouble, ValueType.fieldValue], rfl⟩
  | device =>
      exact ⟨x.narrowed, u, decode_device x u,
        by rw [ValueType.fieldValue, x.toRaw_narrowed, ValueType.fieldValue], rfl⟩
  | f64 | bool | text | dataType => exact ⟨x, u, rfl, rfl, rfl⟩
  | ref r =>
      obtain ⟨u', hrun, htypes⟩ := href hx hreach
      exact ⟨x, u', hrun, rfl, htypes⟩
  | option t =>
      cases t with
      | ref r =>
          cases x with
          | none => exact ⟨none, u, rfl, rfl, rfl⟩
          | some x =>
              cases x with
              | none => exact ⟨none, u, rfl, rfl, rfl⟩
              | some a =>
                  obtain ⟨u', hrun, htypes⟩ := href hx hreach
                  have hthere : (w.showField (.ofRef .object (some a))).isNull = false := by
                    simp [World.showField, Value.ofRef, Value.object?, World.showRef_some,
                      Value.isNull]
                  refine ⟨some (some a), u', ?_, rfl, htypes⟩
                  rw [decode, ValueType.fieldValue, ValueType.fieldValue, if_neg (by simp [hthere])]
                  exact run_map_of_ok hrun
      | _ => cases ht
  | _ => cases ht

end Run

/-! ## All fields -/

/-- The value of a field fits it as long as it is held. -/
theorem World.FitsField.later {f : Field} {x : Value} (h : v.FitsField f x)
    (hproceeds : v.Proceeds others u) (hb : v.Balanced P others)
    (hreach : ∀ a, x.object? = some a → v.heap.Reachable others a) : u.FitsField f x := by
  obtain ⟨ht, x, rfl, hx⟩ := h
  exact ⟨ht, x, rfl, hx.later hproceeds hb (ValueType.forall_references ht hreach)⟩

/-- The values that are shown convert to what the fields hold, one after the other. -/
theorem Creation.converts_of_fits {given : String → Option Value} {fields : List Field}
    {values : List Value} (hregular : v.types.Regular) (hb₀ : v.Balanced P others)
    (hfits : List.Forall₂ v.FitsField fields values)
    (hreach : ∀ x ∈ values, ∀ a, x.object? = some a → v.heap.Reachable others a)
    (hgiven : List.Forall₂ (fun f x => given f.key = some (v.showField x)) fields values)
    (hproceeds : v.Proceeds others u) (htypes : u.types = v.types)
    (hb : u.Balanced P (held ++ others)) :
    ∃ u', Converts given fields u values u' ∧ v.Proceeds others u' ∧ u'.types = v.types := by
  induction hfits generalizing u held with
  | nil => exact ⟨u, .nil, hproceeds, htypes⟩
  | @cons f value fields values hfield _ ih =>
      obtain ⟨hfirst, hothers⟩ := List.forall₂_cons.mp hgiven
      obtain ⟨hvalue, hvalues⟩ := List.forall_mem_cons.mp hreach
      obtain ⟨ht, x, rfl, hx⟩ := hfield
      have hheld := ValueType.forall_references ht hvalue
      have hlasts : ∀ {a}, v.heap.Reachable others a → u.heap.Reachable (held ++ others) a :=
        fun ha => (hproceeds.since.reachable ha).mono fun _ h => List.mem_append_right _ h
      obtain ⟨y, u₁, hrun, hsame, htypes₁⟩ := Run.decode_showField ht
        (hx.later hproceeds hb₀ hheld) (htypes.symm ▸ hregular) hb (fun a ha => hlasts (hheld a ha)) v
      have hborrowed : Run.Borrowed u (held ++ others) (v.showField (f.type.fieldValue x)) := by
        intro a ha
        rw [World.object?_showField] at ha
        exact hlasts (hvalue a ha)
      obtain ⟨hsince, hb₁⟩ := (Run.conserves_decode f.type hb hborrowed).ok y u₁ hrun
      have hproceeds₁ : v.Proceeds others u₁ := by
        refine hproceeds.trans ⟨hsince.of_append, ?_⟩
        rw [htypes₁]
        exact .refl hproceeds.later.regular
      rw [← List.append_assoc] at hb₁
      obtain ⟨u', hconverts, hproceeds', htypes'⟩ :=
        ih hvalues hothers hproceeds₁ (htypes₁.trans htypes) hb₁
      exact ⟨u', hsame ▸ .cons hfirst hrun hconverts, hproceeds', htypes'⟩

/-! ## Visiting -/

/-- The object is visited and shows the attributes. -/
def World.Visits (w : World κ) (o : ObjId) (attrs : List Attr) (v : World κ) : Prop :=
  Reflection.look (some o) w = (.ok (), v) ∧ v.attrs o = .ok attrs

/-- An object need not be asked for classes that have all been looked up. -/
theorem World.answered_of_known {cs : List ObjectClass} (a : ObjId)
    (hcs : ∀ c ∈ cs, ∃ first, w.types.classIndex? c = some first) : w.Answered a cs := by
  induction cs with
  | nil => trivial
  | cons c cs ih =>
      obtain ⟨⟨first, hfirst⟩, hcs⟩ := List.forall_mem_cons.mp hcs
      exact ⟨first, hfirst, .inr (ih hcs)⟩

namespace Run

/-- Several objects are asked how they travel. -/
theorem asked_of_askEach {ids : List ObjId} (hregular : w.types.Regular)
    (hrun : (ids.forM fun id => askClasses id travelClasses) w = (.ok (), v)) :
    w.Asked v ∧ ∀ id ∈ ids, v.Answered id travelClasses := by
  induction ids generalizing w with
  | nil =>
      cases hrun
      exact ⟨.refl hregular, fun _ hid => nomatch hid⟩
  | cons id ids ih =>
      obtain ⟨_, w₁, hask, hrun⟩ := run_bind_eq_ok.mp hrun
      obtain ⟨hasked, hanswered⟩ :=
        asked_of_askClasses hregular (covered_travelClasses covers_rightful) hask
      obtain ⟨hrest, hall⟩ := ih hasked.later.regular hrun
      exact ⟨hasked.trans hrest, List.forall_mem_cons.mpr ⟨hrest.answered hanswered, hall⟩⟩

theorem askEach_of_answered {ids : List ObjId} (h : ∀ id ∈ ids, w.Answered id travelClasses) :
    (ids.forM fun id => askClasses id travelClasses) w = (.ok (), w) := by
  induction ids with
  | nil => rfl
  | cons id ids ih =>
      obtain ⟨hid, hids⟩ := List.forall_mem_cons.mp h
      exact (run_bind_of_ok (askClasses_of_answered hid)).trans (ih hids)

end Run

namespace Reflection

/-- The objects that an object shows. -/
def shownObjects (w : World κ) (o : ObjId) : List ObjId :=
  (w.shown o).filterMap (·.value.object?)

/-- Looking at an object asks about the objects that it shows. -/
theorem look_some (o : ObjId) (w : World κ) :
    look (some o) w = (do
      Run.useReflection
      (shownObjects (← get) o).forM fun id => Run.askClasses id Run.travelClasses : Run κ Unit) w := by
  rcases huse : Run.useReflection w with ⟨fault | _, w₁⟩
  · rw [run_bind_of_error huse]
    exact run_bind_of_error huse
  · rw [run_bind_of_ok huse]
    refine (run_bind_of_ok huse).trans ?_
    rw [run_get_bind, run_get_bind]
    rcases hrun : ((shownObjects w₁ o).forM fun id => Run.askClasses id Run.travelClasses :
      Run κ Unit) w₁ with ⟨fault | _, w₂⟩
    · have hattrs : (Inquiry.attrs w₁ o : Run κ _) w₁ = (.error fault, w₂) := run_bind_of_error hrun
      exact run_bind_of_error hattrs
    · have hattrs : (Inquiry.attrs w₁ o : Run κ _) w₁ = (.ok (w₁.attrs o), w₂) := run_bind_of_ok hrun
      exact run_bind_of_ok hattrs

/-- What looking at an object has looked up. -/
theorem looked {c : ObjectClass} (hregular : w.types.Regular) (hclass : w.OfClass o c)
    (hlook : look (some o) w = (.ok (), v)) :
    w.Asked v ∧ v.Reflecting ∧ ∀ a ∈ shownObjects v o, v.Answered a Run.travelClasses := by
  rw [look_some] at hlook
  obtain ⟨_, w₁, huse, hrest⟩ := run_bind_eq_ok.mp hlook
  rw [run_get_bind] at hrest
  obtain ⟨hasked, hreflecting⟩ := Run.asked_of_useReflection hregular huse
  obtain ⟨hasked', hanswered⟩ := Run.asked_of_askEach hasked.later.regular hrest
  refine ⟨hasked.trans hasked', hasked'.reflecting hreflecting, fun a ha => hanswered a ?_⟩
  obtain ⟨attr, hattr, hvalue⟩ := List.mem_filterMap.mp ha
  have hsame : w₁.schemaOf? o = v.schemaOf? o := (hasked'.schemaOf? (hasked.ofClass hclass)).symm
  obtain ⟨attr', hattr', hvalue'⟩ := World.shows_of_same (P := fun value => value.object? = some a)
    (fun y => by rw [World.object?_showField, World.object?_showField]) hsame
    (hasked'.payload? o).symm ⟨attr, hattr, hvalue⟩
  exact List.mem_filterMap.mpr ⟨attr', hattr', hvalue'⟩

/-- Once all that has been looked up, looking at the object again changes nothing. -/
theorem look_of_answered (hreflecting : w.Reflecting)
    (hanswered : ∀ a ∈ shownObjects w o, w.Answered a Run.travelClasses) :
    look (some o) w = (.ok (), w) := by
  rw [look_some, run_bind_of_ok (Run.useReflection_of_reflecting hreflecting), run_get_bind]
  exact Run.askEach_of_answered hanswered

end Reflection

/-! ## Objects of reflected classes -/

namespace World

variable {values hidden : List Value} {attrs : List Attr}

theorem Reflects.asked (h : w.Reflects schema index) (hasked : w.Asked v) :
    v.Reflects schema index :=
  ⟨hasked.later.classIndex? h.known, (hasked.schemaAt? h.known).trans h.shown, h.distinct⟩

theorem FitsType.asked {t : ValueType} {x : t.Carrier} (hx : w.FitsType t x) (hasked : w.Asked v) :
    v.FitsType t x := by
  induction t with
  | ref r => exact fun a ha => ⟨hasked.mismatch? (hx a ha).1, hasked.isInstance (hx a ha).2⟩
  | option t ih =>
      cases x with
      | none => trivial
      | some x => exact ih hx
  | _ => trivial

namespace HasFields

variable (h : w.HasFields o schema values hidden)
include h

theorem asked (hasked : w.Asked v) : v.HasFields o schema values hidden where
  reflects := hasked.typeIndex o ▸ h.reflects.asked hasked
  content := by rw [hasked.payload? o, h.content]
  members := h.members.imp fun _ _ ⟨ht, x, hvalue, hx⟩ => ⟨ht, x, hvalue, hx.asked hasked⟩

theorem ofClass : w.OfClass o schema.cls := h.reflects.known

theorem schemaOf? : w.schemaOf? o = some schema := h.reflects.shown

theorem length_values : schema.visible.length = values.length := h.members.length_eq

/-- The object shows its fields that are not skipped. -/
theorem attrs_eq : w.attrs o = .ok (List.zipWith
    (fun (f : Field) x => ⟨f.key, w.showField x, f.role = .definition⟩) schema.visible values) := by
  have hzip : List.zipWith (fun (f : Field) x => (⟨f.key, w.showField x, f.role = .definition⟩ : Attr))
      (schema.visible ++ []) (values ++ hidden) = _ := List.zipWith_append h.length_values
  rw [List.append_nil, List.zipWith_nil_left, List.append_nil] at hzip
  rw [World.attrs_eq h.schemaOf?, h.content, Option.getD_some, hzip]

theorem attrs_keys (hattrs : w.attrs o = .ok attrs) : attrs.map Attr.key = schema.attrNames := by
  rw [h.attrs_eq] at hattrs
  cases hattrs
  have hfields : (schema.visible.zip values).map Prod.fst = schema.visible :=
    List.map_fst_zip (Nat.le_of_eq h.length_values)
  rw [← List.map_uncurry_zip_eq_zipWith, List.map_map, Schema.attrNames]
  exact (List.map_map (f := Prod.fst) (g := Field.key)).symm.trans (congrArg _ hfields)

/-- What the fields refer to is held by the object. -/
theorem reachable (ho : w.heap.Reachable others o) {x : Value} (hx : x ∈ values)
    (ha : x.object? = some a) : w.heap.Reachable others a := by
  obtain ⟨content, hcontent, hvalues⟩ := Option.map_eq_some_iff.mp h.content
  have hmem : x ∈ schema.values content := hvalues ▸ List.mem_append_left hidden hx
  exact Run.reachable_of_payload ho hcontent (mem_references_of_mem_values hmem ha)

/-- Every attribute that is shown counts for its field. -/
theorem last_attrs (hattrs : w.attrs o = .ok attrs) :
    List.Forall₂ (fun f x => Creation.last (attrs.map fun a => (a.key, a.value)) f.key =
      some (w.showField x)) schema.visible values := by
  have hkeys : ((attrs.map fun a => (a.key, a.value)).reverse.map Prod.fst).Nodup := by
    rw [List.map_reverse, List.nodup_reverse, List.map_map]
    exact (h.attrs_keys hattrs).symm ▸ h.reflects.distinct
  rw [h.attrs_eq] at hattrs
  cases hattrs
  refine List.forall₂_iff_zip.mpr ⟨h.length_values, fun {f x} hmem => lookup_of_mem hkeys ?_⟩
  rw [List.mem_reverse, ← List.map_uncurry_zip_eq_zipWith, List.map_map]
  exact List.mem_map.mpr ⟨(f, x), hmem, rfl⟩

end HasFields

end World

/-! ## Making an object again -/

/-- The new object is the one that was put at the end of the heap. -/
theorem Heap.eq_of_new {h : Heap κ} {ids released : List ObjId} {payload : Payload κ}
    {found : Object κ} (hfound : (released.foldl Heap.release
      (((h.retainAll ids).alloc index payload).1.retainAll [⟨h.cells.size⟩])).get? ⟨h.cells.size⟩ =
        some found) : found.typeIndex = index ∧ found.payload = payload := by
  have hnew : ((h.retainAll ids).alloc index payload).1.get? ⟨h.cells.size⟩ =
      some ⟨index, 1, payload⟩ := by
    rw [Heap.get?_alloc, if_pos (by rw [Heap.size_retainAll])]
  have hback := (Heap.grown_of_releases (((h.retainAll ids).alloc index payload).1.retainAll
    [⟨h.cells.size⟩]) released).trans (Heap.grown_of_retainAll fun x hx => by
      rw [List.mem_singleton.mp hx]
      exact ⟨_, hnew⟩)
  obtain ⟨n, hn⟩ := hback _ _ hfound
  rw [hnew] at hn
  cases hn
  exact ⟨rfl, rfl⟩

namespace World

variable {values hidden : List Value} {attrs : List Attr}

theorem Asked.balanced (h : w.Asked v) (hb : w.Balanced P held) : v.Balanced P held where
  owned := h.heap ▸ hb.owned
  allowed hcontent := (hb.allowed (h.payload? _ ▸ hcontent)).of_known h.later.classIndex?

theorem Reflects.sameClasses (h : v.Reflects schema index) (hclasses : v.SameClasses u) :
    u.Reflects schema index := by
  refine ⟨by rw [hclasses.types, h.known], ?_, h.distinct⟩
  rw [← h.shown, schemaAt?, schemaAt?, hclasses.types, hclasses.schemas]

/-- The key of its type leads to the type of an object. -/
theorem HasFields.indexOf_typeKey (h : v.HasFields o schema values hidden)
    (hregular : v.types.Regular) : v.types.indexOf (v.typeKey o) = .ok (v.typeIndex o) := by
  rw [typeKey, hregular.showKey_classIndex h.ofClass, TypeTable.indexOf,
    hregular.index?_classIndex h.ofClass]

/-- A value is shown in the same way as long as its object keeps its type. -/
theorem SameClasses.showField_eq (hclasses : v.SameClasses u) {x : Value}
    (htype : ∀ a, x.object? = some a → u.typeIndex a = v.typeIndex a) :
    u.showField x = v.showField x := by
  cases hx : x.object? with
  | none => simp only [World.showField, hx]
  | some a => simp only [World.showField, hx, showRef_some, hclasses.showTag (htype a hx)]

section

variable (hclasses : v.SameClasses u) (h : v.HasFields o schema values hidden)
  (htypes : ∀ x ∈ values, ∀ a, x.object? = some a → u.typeIndex a = v.typeIndex a)
include hclasses h htypes

/-- Objects with the same fields show the same attributes. -/
theorem HasFields.attrs_congr (hb : u.HasFields b schema values []) : u.attrs b = v.attrs o := by
  rw [h.attrs_eq, hb.attrs_eq]
  congr 1
  rw [← List.map_uncurry_zip_eq_zipWith, ← List.map_uncurry_zip_eq_zipWith]
  refine List.map_congr_left fun e he => ?_
  obtain ⟨f, x⟩ := e
  have hx := (List.of_mem_zip he).2
  simp only [Function.uncurry, hclasses.showField_eq (htypes x hx)]

/-- Visiting an object with the same fields asks nothing new. -/
theorem HasFields.visits (hb : u.HasFields b schema values []) (hreflecting : v.Reflecting)
    (hanswered : ∀ a ∈ Reflection.shownObjects v o, v.Answered a Run.travelClasses)
    (hattrs : v.attrs o = .ok attrs) : u.Visits b attrs u := by
  have hsame := h.attrs_congr hclasses htypes hb
  refine ⟨Reflection.look_of_answered ?_ fun a ha => ?_, hsame.trans hattrs⟩
  · rw [Reflecting, hclasses.types]
    exact hreflecting
  · have ha' : a ∈ Reflection.shownObjects v o := by
      rwa [Reflection.shownObjects, shown, hsame] at ha
    obtain ⟨attr, hattr, hvalue⟩ := List.mem_filterMap.mp ha'
    rw [shown, h.attrs_eq, Except.toOption, Option.getD_some,
      ← List.map_uncurry_zip_eq_zipWith] at hattr
    obtain ⟨⟨f, x⟩, hmem, rfl⟩ := List.mem_map.mp hattr
    rw [Function.uncurry, object?_showField] at hvalue
    rw [Answered, hclasses.types, htypes x (List.of_mem_zip hmem).2 a hvalue]
    exact hanswered a ha'

end

/-- Whoever holds an object holds what it shows. -/
theorem borrowed_of_attrs (hattrs : v.attrs o = .ok attrs) (ho : v.heap.Reachable others o) :
    ∀ e ∈ attrs.map fun a => (a.key, a.value), Run.Borrowed v others e.2 := by
  intro e he a ha
  obtain ⟨attr, hattr, rfl⟩ := List.mem_map.mp he
  have hshown : v.shown o = attrs := by simp [shown, hattrs, Except.toOption]
  obtain ⟨content, hcontent, hmem⟩ := refers_of_attr (hshown ▸ hattr) ha
  exact Run.reachable_of_payload ho hcontent hmem

end World

/-- An object of which an object of a reflected class shows the attributes can be made again: the new
object has the same type and shows the same attributes. -/
theorem createObject_of_visited {values hidden : List Value} {attrs : List Attr}
    (hregular : w.types.Regular) (h : w.HasFields o schema values hidden) (hb : w.Balanced P others)
    (ho : w.heap.Reachable others o) (hvisits : w.Visits o attrs v) :
    ∃ b v', createObject (v.typeKey o) (attrs.map fun a => (a.key, a.value)) v =
        (.ok (some b), v') ∧
      v.heap.get? b = none ∧ v'.typeIndex b = v.typeIndex o ∧ v'.Visits b attrs v' ∧
      v'.HasFields b schema values [] ∧ v.Proceeds others v' ∧ v'.Balanced P (b :: others) := by
  obtain ⟨hlook, hattrs⟩ := hvisits
  obtain ⟨hasked, hreflecting, hanswered⟩ := Reflection.looked hregular h.ofClass hlook
  have hregular' := hasked.later.regular
  have h' := h.asked hasked
  have hb' := hasked.balanced hb
  have ho' : v.heap.Reachable others o := by
    rw [hasked.heap]
    exact ho
  have hreach : ∀ x ∈ values, ∀ a, x.object? = some a → v.heap.Reachable others a :=
    fun x hx a ha => h'.reachable ho' hx ha
  obtain ⟨u, hconverts, hproceeds, htypes⟩ := Creation.converts_of_fits hregular' hb' h'.members
    hreach (h'.last_attrs hattrs) (.refl hregular' others) rfl
    (show v.Balanced P ([] ++ others) from hb')
  have hexact : ∀ key ∈ (attrs.map fun a => (a.key, a.value)).map Prod.fst,
      key ∈ schema.attrNames := by
    intro key hkey
    rw [List.map_map] at hkey
    exact h'.attrs_keys hattrs ▸ hkey
  obtain ⟨released, hrun⟩ := Creation.createObject_of_converts (h'.indexOf_typeKey hregular')
    (Run.useReflection_of_reflecting hreflecting) h'.reflects.shown h'.reflects.distinct
    h'.reflects.known hconverts hexact
  generalize hv' : u.withHeap _ = v' at hrun
  have hclasses : v.SameClasses v' := by
    subst hv'
    exact ⟨htypes, hconverts.advanced.schemas⟩
  obtain ⟨hsince, hb''⟩ :=
    (conserves_createObject hb' (World.borrowed_of_attrs hattrs ho')).ok _ _ hrun
  have hproceeds' : v.Proceeds others v' := ⟨hsince, hclasses.types.symm ▸ .refl hregular'⟩
  have hkept : ∀ x ∈ values, ∀ a, x.object? = some a → v'.typeIndex a = v.typeIndex a :=
    fun x hx a ha => hsince.typeIndex hb' (fun _ h => h) (hreach x hx a ha)
  obtain ⟨found, hfound⟩ := hb''.owned.alive_of_mem List.mem_cons_self
  have hnew : found.typeIndex = v.typeIndex o ∧ found.payload = schema.payload values := by
    subst hv'
    exact Heap.eq_of_new hfound
  have htype : v'.typeIndex ⟨u.heap.cells.size⟩ = v.typeIndex o := by
    rw [World.typeIndex, hfound]
    exact hnew.1
  have hfields : v'.HasFields ⟨u.heap.cells.size⟩ schema values [] := by
    refine ⟨htype ▸ h'.reflects.sameClasses hclasses, ?_,
      forall₂_imp_mem h'.members fun f x _ hx hfits => hfits.later hproceeds' hb' (hreach x hx)⟩
    rw [World.payload?, hfound, Option.map_some, Option.map_some, hnew.2, Schema.values_payload,
      List.append_nil]
  have hfresh : v.heap.get? ⟨u.heap.cells.size⟩ = none := by
    refine Option.eq_none_iff_forall_ne_some.mpr fun old hold => ?_
    exact Nat.not_lt.mpr hproceeds.size_le (Heap.lt_size_of_get? hold)
  exact ⟨_, v', hrun, hfresh, htype,
    h'.visits hclasses hkept hfields hreflecting hanswered hattrs, hfields, hproceeds', hb''⟩

/-! ## Skipped fields -/

namespace Schema

/-- Fields with their values.  The values that are kept in skipped fields are given apart; a skipped
field in which nothing is kept has the default of its type. -/
def record (default : ValueType → Value) :
    List Field → List Value → List Value → List (Field × Value)
  | [], _, _ => []
  | f :: fields, shown, hidden =>
    if f.role = .skipped then
      (f, hidden.headD (default f.type)) :: record default fields shown hidden.tail
    else (f, shown.headD .null) :: record default fields shown.tail hidden

/-- A skipped field gets back the default of its type. -/
def reset (default : ValueType → Value) (e : Field × Value) : Field × Value :=
  (e.1, if e.1.role = .skipped then default e.1.type else e.2)

/-- If nothing is kept in skipped fields, they have their defaults and all others their values. -/
theorem record_nil (default : ValueType → Value) (fields : List Field) (shown hidden : List Value) :
    record default fields shown [] = (record default fields shown hidden).map (reset default) := by
  induction fields generalizing shown hidden with
  | nil => rfl
  | cons f fields ih =>
      by_cases hskipped : f.role = .skipped
      · simp [record, reset, hskipped, ih shown hidden.tail]
      · simp [record, reset, hskipped, ih shown.tail hidden]

end Schema

namespace World

variable {values hidden : List Value} {attrs : List Attr}

/-- All fields of an object with their values. -/
def record (w : World κ) (default : ValueType → Value) (s : Schema) (o : ObjId) :
    List (Field × Value) :=
  let values := ((w.payload? o).map s.values).getD []
  Schema.record default s.fields (values.take s.visible.length) (values.drop s.visible.length)

namespace HasFields

theorem record_eq (h : w.HasFields o schema values hidden) (default : ValueType → Value) :
    w.record default schema o = Schema.record default schema.fields values hidden := by
  rw [World.record, h.content, Option.getD_some, h.length_values, List.take_left, List.drop_left]

/-- The names that are reported for an object are those of its class. -/
theorem attrNames_eq (h : v.HasFields o schema values hidden)
    (hvisits : w.Visits o attrs v) :
    Reflection.attrNames (some o) w = (.ok schema.attrNames, v) := by
  have hnames : v.attrNames (some o) = .ok schema.attrNames := by
    rw [← h.attrs_keys hvisits.2, World.attrNames, reflected]
    exact congrArg (fun shown => (return (← shown).map Attr.key : Except Error _)) hvisits.2
  exact (run_bind_of_ok hvisits.1).trans (Loading.query_ok hnames)

end HasFields

end World

/-! ## Exactness -/

/-- Reflection is complete and exact.  An object of a reflected class is made exactly if the given
attributes are those of the class and the values that count convert to the types of the fields;
otherwise the first fault is answered.  Any object of the class shows attributes under these names, of
which an object can be made that has the same type and shows the same, and has only the defaults in
its skipped fields. -/
theorem createObject_exact (hregular : w.types.Regular) (hreflects : w.Reflects schema index) :
    (∀ given w₀, Run.useReflection w = (.ok (), w₀) →
      ((∃ b v, createObject schema.cls.key given w = (.ok (some b), v)) ↔
        (∀ key, key ∈ given.map Prod.fst ↔ key ∈ schema.attrNames) ∧
          ∃ values v, Creation.Converts (Creation.last given) schema.visible w₀ values v) ∧
      ∀ fault, (∃ v, createObject schema.cls.key given w = (.error fault, v)) ↔
        Creation.Fails schema.cls.key given schema.visible w₀ fault) ∧
    ∀ (o : ObjId) (values hidden : List Value) (v : World κ), w.HasFields o schema values hidden →
      Reflection.look (some o) w = (.ok (), v) →
      ∃ attrs, w.Visits o attrs v ∧
        Reflection.attrNames (some o) w = (.ok schema.attrNames, v) ∧
        ∀ (P : κ → Prop) (others : List ObjId), w.Balanced P others → w.heap.Reachable others o →
          ∃ b v', createObject (v.typeKey o) (attrs.map fun a => (a.key, a.value)) v =
              (.ok (some b), v') ∧
            v.heap.get? b = none ∧ v'.typeIndex b = v.typeIndex o ∧ v'.Visits b attrs v' ∧
            (∀ default, v'.record default schema b =
              (v.record default schema o).map (Schema.reset default)) ∧
            v.Proceeds others v' ∧ v'.Balanced P (b :: others) := by
  refine ⟨fun given w₀ huse => ?_, fun o values hidden v h hlook => ?_⟩
  · have hindex : w.types.indexOf schema.cls.key = .ok index := by
      rw [TypeTable.indexOf, hregular.index?_classIndex hreflects.known]
    have hreflects₀ := hreflects.asked (Run.asked_of_useReflection hregular huse).1
    exact Creation.createObject_iff hindex huse hreflects₀.shown hreflects₀.distinct
      hreflects₀.known given
  · have h' := h.asked (Reflection.looked hregular h.ofClass hlook).1
    have hvisits : w.Visits o _ v := ⟨hlook, h'.attrs_eq⟩
    refine ⟨_, hvisits, h'.attrNames_eq hvisits, fun P others hb ho => ?_⟩
    obtain ⟨b, v', hrun, hfresh, htype, hvisits', hfields, hproceeds, hb'⟩ :=
      createObject_of_visited hregular h hb ho hvisits
    refine ⟨b, v', hrun, hfresh, htype, hvisits', fun default => ?_, hproceeds, hb'⟩
    rw [hfields.record_eq, h'.record_eq]
    exact Schema.record_nil default schema.fields values hidden

/-! ## A note -/

/-- Notes have a text and a count from their base class, and a weight, an optional remark and a
skipped field of their own. -/
def noteSchema : Schema :=
  ⟨.derived ⟨"test.Note", none, 0, true, true⟩ (.derived ⟨"test.Item", none, 0, true, false⟩ .root),
    .tree, [⟨"text", .ref .string, .use⟩, ⟨"count", .ref .boxInt, .use⟩,
      ⟨"cache", .int .i64, .skipped⟩, ⟨"weight", .f32, .use⟩,
      ⟨"remark", .option (.ref .string), .use⟩]⟩

/-- What is shown of a note without a remark. -/
def noteValues : List Value :=
  [.object .object ⟨0⟩, .object .object ⟨1⟩, .float (Single.toDouble ⟨1073741824⟩), .null]

/-- No objects yet, but notes are reflected. -/
def beforeNotes : World Unit :=
  { (World.initial : World Unit) with
    types := (ObjectClass.builtins ++ [noteSchema.cls]).foldl (fun t c => (t.touch c).2) .initial
    schemas := [(12, noteSchema)] }

/-- A note with its text and its count. -/
def noted : World Unit :=
  (Run.create noteSchema.cls (.node (noteValues ++ [.int 5]))
    (Box.make (.int 7) (Run.create .string (.text "k") beforeNotes).2).2).2

theorem noted_regular : noted.types.Regular := by
  have htypes : noted.types = beforeNotes.types := rfl
  rw [htypes]
  refine TypeTable.Regular.initial.touchAll fun c hc => ?_
  rcases List.mem_append.mp hc with hc | hc
  · exact ObjectClass.rightful_of_mem_builtins hc
  · cases List.mem_singleton.mp hc
    exact ⟨⟨trivial, fun index hclaim => nomatch hclaim⟩, fun index hclaim => nomatch hclaim⟩

theorem noted_known :
    ∀ c ∈ ObjectClass.builtins, ∃ first, noted.types.classIndex? c = some first := by
  have hknown : ∀ c ∈ ObjectClass.builtins, (noted.types.classIndex? c).isSome := by decide +kernel
  exact fun c hc => Option.isSome_iff_exists.mp (hknown c hc)

theorem noted_balanced : noted.Balanced (fun _ => True) [⟨2⟩] := by
  have hempty : beforeNotes.Balanced (fun _ => True) [] := .of_empty rfl
  have htext : Run.Conserves (fun _ => True) beforeNotes [] (fun id => [id]) []
      (Run.create .string (.text "k")) := Run.conserves_create [] hempty trivial
  have hcount : Run.Conserves (fun _ => True) (Run.create .string (.text "k") beforeNotes).2 [⟨0⟩]
      (fun id => [id]) [] (Box.make (.int 7)) := Box.conserves_make (htext.ok ⟨0⟩ _ rfl).2
  have hnote : Run.Conserves (fun _ => True)
      (Box.make (.int 7) (Run.create .string (.text "k") beforeNotes).2).2 [] (fun id => [id]) []
      (Run.create noteSchema.cls (.node (noteValues ++ [.int 5]))) :=
    Run.conserves_create [] ((hcount.ok ⟨1⟩ _ rfl).2.perm (List.Perm.swap _ _ _)) trivial
  exact (hnote.ok ⟨2⟩ noted rfl).2

theorem noted_hasFields : noted.HasFields ⟨2⟩ noteSchema noteValues [.int 5] where
  reflects := ⟨by decide +kernel, by rfl, by decide⟩
  content := rfl
  members := by
    refine .cons ⟨rfl, some ⟨0⟩, rfl, ?_⟩ (.cons ⟨rfl, some ⟨1⟩, rfl, ?_⟩
      (.cons ⟨rfl, ⟨1073741824⟩, rfl, trivial⟩ (.cons ⟨rfl, none, rfl, trivial⟩ .nil)))
    · rintro _ ⟨⟩
      decide +kernel
    · rintro _ ⟨⟩
      decide +kernel

theorem createObject_exact_note :
    (∃ v, createObject "test.Note" [] noted =
      (.error (.error (.attrMissing "test.Note" "text")), v)) ∧
    ∃ attrs, noted.Visits ⟨2⟩ attrs noted ∧
      ∃ b v', createObject (noted.typeKey ⟨2⟩) (attrs.map fun a => (a.key, a.value)) noted =
          (.ok (some b), v') ∧ v'.Visits b attrs v' ∧
        v'.record (fun _ => .int 0) noteSchema b =
          (noted.record (fun _ => .int 0) noteSchema ⟨2⟩).map (Schema.reset fun _ => .int 0) := by
  obtain ⟨hmade, hshown⟩ := createObject_exact noted_regular noted_hasFields.reflects
  have hreflecting : noted.Reflecting := by
    intro s hs
    simp only [Schema.builtins, List.mem_cons, List.not_mem_nil, or_false] at hs
    rcases hs with rfl | rfl | rfl
    all_goals exact noted_known _ (by decide)
  have huse := Run.useReflection_of_reflecting hreflecting
  have hlook := Reflection.look_of_answered (o := ⟨2⟩) hreflecting fun a _ =>
    World.answered_of_known a fun c hc => noted_known c (by revert c; decide)
  refine ⟨((hmade [] noted huse).2 _).mpr (.field (.missing rfl)), ?_⟩
  obtain ⟨attrs, hvisits, -, hagain⟩ := hshown ⟨2⟩ noteValues [.int 5] noted noted_hasFields hlook
  obtain ⟨b, v', hrun, -, -, hvisits', hrecord, -⟩ :=
    hagain _ _ noted_balanced (.of_mem List.mem_cons_self)
  exact ⟨attrs, hvisits, b, v', hrun, hvisits', hrecord _⟩

end ObjectRuntime
