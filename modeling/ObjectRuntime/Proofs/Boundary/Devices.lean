import ObjectRuntime.Proofs.Reflection.Following
import ObjectRuntime.Proofs.Reflection.Recreation
import ObjectRuntime.Proofs.Text.Descriptions
set_option autoImplicit false

/-!
# Devices on their ways

A device is read back from its text whatever its unit.  On every other way it travels as a
`RawDevice`, which keeps the low 32 bits of the unit, and what arrives is the unit that these 32 bits
and a sign stand for (`Device.narrowed`).  So a device arrives as it was sent exactly if its unit is
one of the first or of the last units (`Device.IsNarrow`), and devices whose units differ by a
multiple of 2 ^ 32 are the same on the way.
-/

namespace ObjectRuntime

open World (Balanced)

/-! ## Attributes -/

variable {κ : Type} {P : κ → Prop} {w v u : World κ} {others : List ObjId} {o b : ObjId}
  {schema : Schema} {index : Nat} {key : String} {role : FieldRole} {d : Device}
  {given : List (String × Value)}

namespace World

/-- An attribute shows what its field holds.  What is kept in skipped fields stands behind. -/
theorem attr_of_field {values hidden : List Value} {f : Field} {x : Value}
    (hreflects : w.Reflects schema (w.typeIndex o))
    (hcontent : (w.payload? o).map schema.values = some (values ++ hidden))
    (hlength : schema.visible.length = values.length) (hmem : (f, x) ∈ schema.visible.zip values) :
    w.attr (some o) f.key = .ok (w.showField x) := by
  have hzip : schema.visible.zip (values ++ hidden) = schema.visible.zip values := by
    have happend : (schema.visible ++ []).zip (values ++ hidden) =
        schema.visible.zip values ++ [].zip hidden := List.zip_append hlength
    simpa using happend
  have hkeys : ((schema.visible.zip values).map fun e => e.1.key).Nodup := by
    have hfields : (schema.visible.zip values).map Prod.fst = schema.visible :=
      List.map_fst_zip (Nat.le_of_eq hlength)
    have hnodup := hreflects.distinct
    rw [Schema.attrNames, ← hfields, List.map_map] at hnodup
    exact hnodup
  have hattrs : w.attrs o = .ok ((schema.visible.zip values).map fun e =>
      ⟨e.1.key, w.showField e.2, e.1.role = .definition⟩) := by
    rw [World.attrs_eq hreflects.shown, hcontent, Option.getD_some,
      ← List.map_uncurry_zip_eq_zipWith, hzip]
    rfl
  have hfind : ((schema.visible.zip values).map fun e =>
      (⟨e.1.key, w.showField e.2, e.1.role = .definition⟩ : Attr)).find? (fun a => a.key == f.key) =
        some ⟨f.key, w.showField x, f.role = .definition⟩ := by
    rw [List.find?_map, Function.comp_def, find?_of_mem hkeys hmem]
    rfl
  rw [World.attr, reflected]
  simp only [hattrs, hfind, Bind.bind, Except.bind]

theorem Reflects.moved (h : w.Reflects schema index) (hreflecting : w.Reflecting)
    (hmoved : Build.Moved w v) : v.Reflects schema index :=
  ⟨hmoved.types.classIndex? h.known,
    (Loading.schemaAt?_of_moved hmoved hreflecting index).trans h.shown, h.distinct⟩

/-- The object is of a reflected class, and a field of it that is shown holds the device. -/
structure HoldsDevice (w : World κ) (o : ObjId) (schema : Schema) (key : String) (d : Device) :
    Prop where
  reflects : w.Reflects schema (w.typeIndex o)
  field : ∃ role values hidden, (w.payload? o).map schema.values = some (values ++ hidden) ∧
    schema.visible.length = values.length ∧
    (⟨key, .device, role⟩, ValueType.fieldValue .device d) ∈ schema.visible.zip values

theorem HoldsDevice.attr (h : w.HoldsDevice o schema key d) :
    w.attr (some o) key = .ok (.device d.toRaw) := by
  obtain ⟨role, values, hidden, hcontent, hlength, hmem⟩ := h.field
  exact attr_of_field h.reflects hcontent hlength hmem

end World

namespace Reflection

/-- A device that an object holds is read as an attribute. -/
theorem attr_of_holdsDevice (h : v.HoldsDevice o schema key d)
    (hlook : look (some o) w = (.ok (), v)) : attr (some o) key w = (.ok (.device d.toRaw), v) := by
  have hquery : Run.query (·.attr (some o) key) v = (.ok (.device d.toRaw), v) :=
    Loading.query_ok h.attr
  rw [attr, run_bind_of_ok hlook, run_bind_of_ok hquery]
  rfl

/-- Looking at an object only looks classes up. -/
theorem moved_of_look (hlook : look (some o) w = (.ok (), v)) :
    Build.Moved w v ∧ v.heap = w.heap := by
  have hboxes : Run.Advances (fun _ => True) (Run.useReflection : Run κ Unit) :=
    Run.advances_forM (fun s => (Run.advances_touch trivial).bind fun _ => Run.advances_pure ())
      Schema.builtins
  have hmoved : Build.Moved w (look (some o) w).2 := by
    rw [look_some]
    refine (hboxes.bind fun _ => Run.advances_get fun w' => ?_) w
    exact Run.advances_forM (fun id => Run.advances_askClasses id fun _ _ => trivial) _
  have hheap := (quiet_look (some o) w).1
  rw [hlook] at hmoved hheap
  exact ⟨hmoved, hheap⟩

end Reflection

/-- An object goes on holding a device while classes are looked up, once those of the boxes are
known. -/
theorem World.HoldsDevice.moved (h : w.HoldsDevice o schema key d) (hreflecting : w.Reflecting)
    (hmoved : Build.Moved w v) (hheap : v.heap = w.heap) : v.HoldsDevice o schema key d := by
  have htype : v.typeIndex o = w.typeIndex o := by simp only [World.typeIndex, hheap]
  have hcontent : v.payload? o = w.payload? o := by simp only [World.payload?, hheap]
  refine ⟨?_, hcontent ▸ h.field⟩
  rw [htype]
  exact h.reflects.moved hreflecting hmoved

/-- An object that has been made of attributes keeps what these were converted to. -/
theorem Creation.made_of_createObject (hregular : w.types.Regular)
    (hreflects : w.Reflects schema index) (hb : w.Balanced P others)
    (hgiven : ∀ e ∈ given, Run.Borrowed w others e.2)
    (hrun : createObject schema.cls.key given w = (.ok (some b), v)) :
    ∃ (values : List Value) (w₀ u : World κ),
      Creation.Converts (Creation.last given) schema.visible w₀ values u ∧ v.Reflecting ∧
      v.Reflects schema (v.typeIndex b) ∧ v.payload? b = some (schema.payload values) := by
  have hindex : w.types.indexOf schema.cls.key = .ok index := by
    rw [TypeTable.indexOf, hregular.index?_classIndex hreflects.known]
  obtain ⟨found, hfound⟩ :=
    ((conserves_createObject hb hgiven).ok _ _ hrun).2.owned.alive_of_mem List.mem_cons_self
  rcases huse : Run.useReflection w with ⟨fault | _, w₀⟩
  · have hfails : ∃ v', createObject schema.cls.key given w = (.error fault, v') := by
      have hquery : Run.query (·.types.indexOf schema.cls.key) w = (.ok index, w) :=
        Loading.query_ok hindex
      rw [createObject, Build.run, Build.object, Build.bind_of_ok (Build.ofRun_of_ok hquery),
        Build.bind_of_error (Build.ofRun_of_error huse)]
      exact ⟨_, rfl⟩
    obtain ⟨v', hfails⟩ := hfails
    cases hfails.symm.trans hrun
  obtain ⟨hasked, hreflecting⟩ := Run.asked_of_useReflection hregular huse
  have hreflects₀ := hreflects.asked hasked
  rcases Creation.converts_or_fails schema.cls.key given schema.visible w₀ with
    ⟨hexact, values, u, hconverts⟩ | ⟨fault, hfails⟩
  · obtain ⟨held, hmade⟩ := Creation.createObject_of_converts hindex huse hreflects₀.shown
      hreflects₀.distinct hreflects₀.known hconverts hexact
    cases hmade.symm.trans hrun
    obtain ⟨htype, hpayload⟩ := Heap.eq_of_new hfound
    have hmoved : Build.Moved w₀ u := hconverts.advanced
    generalize hv : u.withHeap _ = v at hfound
    have hclasses : u.SameClasses v := by
      subst hv
      exact ⟨rfl, rfl⟩
    refine ⟨values, w₀, u, hconverts, ?_, ?_, ?_⟩
    · rw [World.Reflecting, hclasses.types]
      exact Loading.reflecting_of_moved hmoved hreflecting
    · rw [World.typeIndex, hfound, Option.map_some, Option.getD_some, htype]
      exact (hreflects₀.moved hreflecting hmoved).sameClasses hclasses
    · rw [World.payload?, hfound, Option.map_some, hpayload]
  · obtain ⟨v', hfails⟩ := Creation.createObject_of_fails hindex huse hreflects₀.shown
      hreflects₀.distinct hfails
    cases hfails.symm.trans hrun

/-- An object of a reflected class has been made of attributes, among which the value counts for one of
the type of devices. -/
inductive World.MadeWith (w : World κ) (key : String) (value : Value) (b : ObjId) (v : World κ) : Prop
  | made {P : κ → Prop} {others : List ObjId} {schema : Schema} {index : Nat}
      {given : List (String × Value)} {role : FieldRole} (regular : w.types.Regular)
      (reflects : w.Reflects schema index) (balanced : w.Balanced P others)
      (borrowed : ∀ e ∈ given, Run.Borrowed w others e.2)
      (field : ⟨key, .device, role⟩ ∈ schema.visible) (counts : Creation.last given key = some value)
      (run : createObject schema.cls.key given w = (.ok (some b), v)) : w.MadeWith key value b v

/-- An object that is made of attributes holds the device that was given. -/
theorem World.MadeWith.holdsDevice (h : w.MadeWith key (.device d.toRaw) b v) :
    v.Reflecting ∧ ∃ schema, v.HoldsDevice b schema key d := by
  obtain @⟨P, others, schema, index, given, role, hregular, hreflects, hb, hgiven, hfield, hlast,
    hrun⟩ := h
  obtain ⟨values, w₀, u, hconverts, hreflecting, hreflects', hpayload⟩ :=
    Creation.made_of_createObject hregular hreflects hb hgiven hrun
  obtain ⟨a, x, w₁, w₂, hfound, hdecode, hmem⟩ := hconverts.exists_of_mem hfield
  cases hlast.symm.trans hfound
  obtain rfl : x = d.narrowed := by
    rw [Run.decode_device] at hdecode
    cases hdecode
    rfl
  refine ⟨hreflecting, schema, hreflects', role, values, [], ?_, hconverts.length_eq, ?_⟩
  · rw [hpayload, Option.map_some, Schema.values_payload, List.append_nil]
  · rw [ValueType.fieldValue, ← Device.toRaw_narrowed]
    exact hmem

/-- The attribute shows the device as it was given. -/
theorem World.MadeWith.attr (h : w.MadeWith key (.device d.toRaw) b v)
    (hlook : Reflection.look (some b) v = (.ok (), u)) :
    Reflection.attr (some b) key v = (.ok (.device d.toRaw), u) := by
  obtain ⟨hreflecting, schema, hholds⟩ := h.holdsDevice
  obtain ⟨hmoved, hheap⟩ := Reflection.moved_of_look hlook
  exact Reflection.attr_of_holdsDevice (hholds.moved hreflecting hmoved hheap) hlook

/-! ## All ways -/

/-- How a device arrives.  Its text tells it, whatever its unit.  As a raw device, in a value that is
passed or returned, and in an attribute of an object it always arrives as some device, which is the one
that was sent exactly if 32 bits with a sign stand for its unit; and two devices are the same on the way
exactly if they are of one kind and their units have the same low 32 bits. -/
theorem Device.arrives_narrowed (d : Device) :
    Device.parse d.toText = .ok d ∧
    Device.ofRaw d.toRaw = .ok d.narrowed ∧
    (∀ w : World κ, ∃ value, Run.encode .device d w = (.ok value, w) ∧
      (∀ sent ∈ [value.asArgument, value.asResult],
        Run.decode .device sent w = (.ok d.narrowed, w)) ∧
      ∀ key b v u, w.MadeWith key value b v → Reflection.look (some b) v = (.ok (), u) →
        ∃ shown, Reflection.attr (some b) key v = (.ok shown, u) ∧
          Run.decode .device shown u = (.ok d.narrowed, u)) ∧
    (d.narrowed = d ↔ d.IsNarrow) ∧
    ∀ e : Device, d.toRaw = e.toRaw ↔
      d.kind = e.kind ∧ d.unit.val % 2 ^ 32 = e.unit.val % 2 ^ 32 := by
  refine ⟨d.parse_toText, d.ofRaw_toRaw_eq, fun w => ⟨.device d.toRaw, rfl, ?_, ?_⟩,
    narrowed_eq_iff, fun e => toRaw_eq_iff⟩
  · intro sent hsent
    have hsent : sent = .device d.toRaw := by simpa [Value.asArgument, Value.asResult] using hsent
    rw [hsent, Run.decode_device]
  · intro key b v u hmade hlook
    exact ⟨_, hmade.attr hlook, Run.decode_device d u⟩

/-- The unit with the number 2 ^ 32 is told from the first one by its text only. -/
theorem Device.unit_beyond_aliased :
    let d : Device := ⟨.cuda, 4294967296⟩
    let first : Device := ⟨.cuda, 0⟩
    d ≠ first ∧ Device.parse d.toText = .ok d ∧ d.toRaw = first.toRaw ∧
      Device.ofRaw d.toRaw = .ok first :=
  ⟨by decide, Device.parse_toText _, by decide, by rfl⟩

/-- Kernels run on a device. -/
def kernelSchema : Schema :=
  ⟨.derived ⟨"test.Kernel", none, 0, true, true⟩ .root, .tree, [⟨"device", .device, .use⟩]⟩

/-- No objects yet, but kernels are reflected. -/
def beforeKernels : World Unit :=
  { (World.initial : World Unit) with
    types := (ObjectClass.builtins ++ [kernelSchema.cls]).foldl (fun t c => (t.touch c).2) .initial
    schemas := [(11, kernelSchema)] }

theorem beforeKernels_regular : beforeKernels.types.Regular := by
  refine TypeTable.Regular.initial.touchAll fun c hc => ?_
  rcases List.mem_append.mp hc with hc | hc
  · exact ObjectClass.rightful_of_mem_builtins hc
  · cases List.mem_singleton.mp hc
    exact ⟨trivial, fun index hclaim => nomatch hclaim⟩

theorem beforeKernels_reflects : beforeKernels.Reflects kernelSchema 11 :=
  ⟨by decide +kernel, by rfl, by decide⟩

theorem beforeKernels_reflecting : beforeKernels.Reflecting := by
  have hknown : ∀ s ∈ Schema.builtins, (beforeKernels.types.classIndex? s.cls).isSome := by
    decide +kernel
  exact fun s hs => Option.isSome_iff_exists.mp (hknown s hs)

/-- A device is nobody's object. -/
theorem borrowed_device (w : World κ) (others : List ObjId) (raw : RawDevice) :
    ∀ e ∈ [(key, Value.device raw)], Run.Borrowed w others e.2 := by
  intro e he a ha
  cases List.mem_singleton.mp he
  cases ha

/-- Nothing is looked up when a kernel is looked at that has been made of its device. -/
theorem look_kernel {v : World Unit} {raw : RawDevice}
    (hrun : createObject kernelSchema.cls.key [("device", .device raw)] beforeKernels =
      (.ok (some b), v)) : Reflection.look (some b) v = (.ok (), v) := by
  have hb : beforeKernels.Balanced (fun _ => True) [] := .of_empty rfl
  obtain ⟨values, w₀, u, hconverts, hreflecting, hreflects, hcontent⟩ :=
    Creation.made_of_createObject beforeKernels_regular beforeKernels_reflects hb
      (borrowed_device _ _ _) hrun
  have hvisible : kernelSchema.visible = [⟨"device", .device, .use⟩] := rfl
  have hattrs := World.attrs_eq (a := b) hreflects.shown
  rw [hvisible] at hconverts hattrs
  cases hconverts with
  | cons found converted rest =>
      cases rest
      have hshown : Reflection.shownObjects v b = [] := by
        simp [Reflection.shownObjects, World.shown, hattrs, hcontent, Except.toOption,
          ValueType.fieldValue, World.showField, Value.object?]
      exact Reflection.look_of_answered hreflecting (by simp [hshown])

/-- A kernel is made with a device, and another one is read from it. -/
theorem Device.arrives_narrowed_kernel :
    ∃ b v, createObject "test.Kernel" [("device", .device (Device.toRaw ⟨.cuda, 4294967303⟩))]
        beforeKernels = (.ok (some b), v) ∧
      ∃ shown, Reflection.attr (some b) "device" v = (.ok shown, v) ∧
        Run.decode .device shown v = (.ok ⟨.cuda, 7⟩, v) := by
  let d : Device := ⟨.cuda, 4294967303⟩
  have hindex : beforeKernels.types.indexOf kernelSchema.cls.key = .ok 11 := by
    rw [TypeTable.indexOf, beforeKernels_regular.index?_classIndex beforeKernels_reflects.known]
  have huse := Run.useReflection_of_reflecting beforeKernels_reflecting
  obtain ⟨b, v, hrun⟩ := (Creation.createObject_iff hindex huse beforeKernels_reflects.shown
    beforeKernels_reflects.distinct beforeKernels_reflects.known
    [("device", .device d.toRaw)]).1.mpr
      ⟨fun key => Iff.rfl, _, _, .cons rfl (Run.decode_device d _) .nil⟩
  have hmade : beforeKernels.MadeWith "device" (.device d.toRaw) b v := by
    have hb : beforeKernels.Balanced (fun _ => True) [] := .of_empty rfl
    have hfield : (⟨"device", .device, .use⟩ : Field) ∈ kernelSchema.visible := by decide
    exact .made beforeKernels_regular beforeKernels_reflects hb (borrowed_device _ _ _) hfield rfl
      hrun
  obtain ⟨-, -, hways, -⟩ := Device.arrives_narrowed (κ := Unit) d
  obtain ⟨value, hencode, -, hattribute⟩ := hways beforeKernels
  cases hencode
  exact ⟨b, v, hrun, hattribute "device" b v v hmade (look_kernel hrun)⟩

end ObjectRuntime
