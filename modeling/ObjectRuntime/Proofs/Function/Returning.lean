import ObjectRuntime.Proofs.Function.Passing
import ObjectRuntime.Proofs.Text.Descriptions
set_option autoImplicit false

/-!
# Values that become members again

A value that carries a member of a type is converted to a member of this type: the same one, or a
reference to a new box in place of a box (`ValueType.Returned`).  The conversion cannot fail, since
what it asks for has been looked up when the member went over to the value.
-/

namespace ObjectRuntime

open World (Balanced Proceeds Since)

variable {κ : Type} {P : κ → Prop} {w w₀ w' w'' : World κ} {others held : List ObjId}
  {a : ObjId} {t : RefType} {r r' : Ref} {v : Value}

/-! ## References -/

/-- What comes back for a reference that was held in an earlier world: nothing, the same object, or a
new box with the content of the old one. -/
inductive World.ComesBack (w w' : World κ) : Ref → Ref → Prop where
  | null : ComesBack w w' none none
  /-- A box comes back as it is only if the table has put its class below that of modules. -/
  | same {a : ObjId} (box : ∀ content : BoxContent, w.ObjectAt a content.cls content.payload →
      w'.isInstance a .module = true) : ComesBack w w' (some a) (some a)
  | box {a b : ObjId} (content : BoxContent) (old : w.ObjectAt a content.cls content.payload)
      (new : w'.ObjectAt b content.cls content.payload) (fresh : w.heap.get? b = none) :
      ComesBack w w' (some a) (some b)

namespace World

/-- Names of objects are not used again. -/
theorem Proceeds.size_le (h : w.Proceeds others w') : w.heap.cells.size ≤ w'.heap.cells.size := by
  obtain ⟨deaths, hended⟩ := Heap.exists_ended h.since.becomes
  exact hended.size

/-- What has come back does not change while it is held. -/
theorem ComesBack.later (h : w₀.ComesBack w r r') (hproceeds : w.Proceeds others w')
    (hb : w.Balanced P held) (hsub : ∀ x ∈ others, x ∈ held)
    (hr : ∀ x, r' = some x → w.heap.Reachable others x) : w₀.ComesBack w' r r' := by
  cases h with
  | null => exact .null
  | @same a box =>
      exact .same fun content hbox => hproceeds.isInstance hb hsub (hr a rfl) (box content hbox)
  | @box a b content old new fresh =>
      exact .box content old (new.since hproceeds.since (hr b rfl)) fresh

/-- A carried object that passes the check of a type is passed on with a reference more. -/
theorem decodeRef_object (hchecked : w.mismatch? t (some a) = none)
    (hmember : w.isInstance a t.cls = true) (tag : ObjectTag) (hregular : w.types.Regular)
    (hb : w.Balanced P others) (ha : w.heap.Reachable others a) :
    Run.decodeRef t (.object tag a) w = (.ok (some a), w.withHeap (w.heap.retain a)) := by
  obtain ⟨hsince, hb'⟩ := (Run.conserves_retain (P := P) [] [] hb ha).ok () _ rfl
  have hproceeds : w.Proceeds others (w.withHeap (w.heap.retain a)) := ⟨hsince, .refl hregular⟩
  have hpasses := hb'.passes (hproceeds.checked hb (fun _ hx => hx) (fun x hx => by
    cases hx
    exact ha) hchecked)
  cases t with
  | named name cls => exact Run.objectOf_object hmember
  | array elem => exact Run.decodeContainer_object hmember hpasses
  | map key value => exact Run.decodeContainer_object hmember hpasses

theorem Referable.decodeRef (h : w.Referable t a) (tag : ObjectTag) (hregular : w.types.Regular)
    (hb : w.Balanced P others) (ha : w.heap.Reachable others a) :
    Run.decodeRef t (.object tag a) w = (.ok (some a), w.withHeap (w.heap.retain a)) ∧
      (w.withHeap (w.heap.retain a)).Referable t a := by
  have hsince := ((Run.conserves_retain (P := P) [] [] hb ha).ok () _ rfl).1
  have hproceeds : w.Proceeds others (w.withHeap (w.heap.retain a)) := ⟨hsince, .refl hregular⟩
  exact ⟨decodeRef_object h.checked h.member tag hregular hb ha,
    h.later hproceeds hb (fun _ hx => hx) ha⟩

/-- A value that has come of a reference is converted back. -/
theorem Conveys.decodeRef (h : w₀.Conveys w t r v) (hregular : w.types.Regular)
    (hb : w.Balanced P others) (hv : Run.Borrowed w others v)
    (hbase : w₀.heap.cells.size ≤ w.heap.cells.size) :
    ∃ r' w', Run.decodeRef t v w = (.ok r', w') ∧ w'.types = w.types ∧ w₀.ComesBack w' r r' ∧
      ∀ b, r' = some b → w'.Referable t b := by
  cases h with
  | null =>
      refine ⟨none, w, ?_, rfl, .null, fun b hb => nomatch hb⟩
      cases t <;> rfl
  | @object a tag referable box =>
      obtain ⟨hrun, hlasts⟩ := referable.decodeRef tag hregular hb (hv a rfl)
      refine ⟨some a, _, hrun, rfl, .same fun content hbox => ?_, ?_⟩
      · rw [isInstance_retain]
        exact box content hbox
      · rintro b hb
        cases hb
        exact hlasts
  | @number a name cls first content box known named index member descends =>
      subst named
      have hget : (w.withHeap (w.heap.alloc (w₀.typeIndex a) content.payload).1).heap.get?
          ⟨w.heap.cells.size⟩ = some ⟨w₀.typeIndex a, 1, content.payload⟩ := by
        rw [withHeap_heap, Heap.get?_alloc, if_pos rfl]
      have hnew : Run.IsFresh (w.withHeap (w.heap.alloc (w₀.typeIndex a) content.payload).1)
          ⟨w.heap.cells.size⟩ content.cls content.payload := ⟨w₀.typeIndex a, known, hget⟩
      have htype : (w.withHeap (w.heap.alloc (w₀.typeIndex a) content.payload).1).typeIndex
          ⟨w.heap.cells.size⟩ = w₀.typeIndex a := by
        rw [World.typeIndex, hget]
        rfl
      have hfresh : w₀.heap.get? ⟨w.heap.cells.size⟩ = none := by
        rw [Option.eq_none_iff_forall_ne_some]
        intro o ho
        exact Nat.not_lt.mpr hbase (Heap.lt_size_of_get? ho)
      refine ⟨_, _, Run.objectOf_number content.boxedAs known index descends member, rfl,
        .box content box hnew.objectAt hfresh, ?_⟩
      rintro b hb
      cases hb
      refine referable_of_box hregular hnew.objectAt index ?_ ?_
      · rw [htype]
        exact member
      · rw [htype]
        exact descends

end World

/-! ## Members -/

namespace ValueType

/-- What comes back for a member: the same, where the pattern of a number that is not one does not
count, or what comes back for a reference. -/
def Returned (w w' : World κ) : (t : ValueType) → t.Carrier → t.Carrier → Prop
  | .f32, x, y => x.Same y
  | .ref _, r, r' => w.ComesBack w' r r'
  | .option t, some x, y => ∃ z, y = some z ∧ t.Returned w w' x z
  | _, x, y => x = y

theorem Returned.later {t : ValueType} {x y : t.Carrier} (h : t.Returned w₀ w x y)
    (hproceeds : w.Proceeds others w') (hb : w.Balanced P held) (hsub : ∀ x ∈ others, x ∈ held)
    (hy : ∀ id ∈ t.references y, w.heap.Reachable others id) : t.Returned w₀ w' x y := by
  induction t with
  | ref t =>
      exact World.ComesBack.later h hproceeds hb hsub fun id hid => hy id (by simp [references, hid])
  | option t ih =>
      cases x with
      | none => exact h
      | some x =>
          obtain ⟨z, rfl, hz⟩ := h
          exact ⟨z, rfl, ih hz hy⟩
  | _ => exact h

end ValueType

namespace Run

/-- A value that carries a device is converted to the device that arrives. -/
theorem decode_device (d : Device) (w : World κ) :
    decode .device (.device d.toRaw) w = (.ok d.narrowed, w) := by
  have hraw : World.deviceOfRaw d.toRaw = .ok d.narrowed := by
    rw [World.deviceOfRaw, Device.ofRaw_toRaw_eq]
  exact ofExcept_eq_ok.mpr ⟨hraw, rfl⟩

theorem decode_of_direct {t : ValueType} {x : t.Carrier} (h : t.Carried w₀ w x v)
    (ht : t.isDirect = true) (hx : t.Passable w₀ x) (hregular : w.types.Regular)
    (hb : w.Balanced P others) (hv : Borrowed w others v)
    (hbase : w₀.heap.cells.size ≤ w.heap.cells.size) :
    ∃ y w', decode t v w = (.ok y, w') ∧ w'.types = w.types ∧ t.Returned w₀ w' x y ∧
      t.Passable w' y ∧ (t.fieldValue x ≠ .null → t.fieldValue y ≠ .null) := by
  cases t with
  | ref t =>
      obtain ⟨y, w', hrun, htypes, hback, hreferable⟩ :=
        World.Conveys.decodeRef h hregular hb hv hbase
      refine ⟨y, w', hrun, htypes, hback, hreferable, fun hthere => ?_⟩
      cases hback with
      | null => exact hthere
      | same | box => exact Value.noConfusion
  | int k =>
      cases (show v = _ from h)
      have hsame : (MachineInt.wrap .i64 x.val).val = x.val :=
        MachineInt.val_of_ofInt?_eq_some (MachineInt.ofInt?_of_le hx)
      have hdecode : w.decodeInt k (.int (MachineInt.wrap .i64 x.val)) = .ok x := by
        unfold World.decodeInt
        simp [World.unboxed, Value.object?, hsame]
      exact ⟨x, w, ofExcept_eq_ok.mpr ⟨hdecode, rfl⟩, rfl, rfl, hx, id⟩
  | device =>
      cases (show v = _ from h)
      have hnarrow : x.narrowed = x := Device.narrowed_eq_iff.mpr (.inl hx)
      exact ⟨x, w, (decode_device x w).trans (by rw [hnarrow]), rfl, rfl, hx, id⟩
  | f32 =>
      cases (show v = _ from h)
      exact ⟨_, w, rfl, rfl, Single.same_toDouble_toSingle x, trivial, fun _ => Value.noConfusion⟩
  | f64 | bool | text | bytes | dataType =>
      cases (show v = _ from h)
      exact ⟨x, w, rfl, rfl, rfl, trivial, id⟩
  | _ => cases ht

/-- A value that carries a member is converted back, and what comes back can be passed again. -/
theorem decode_of_passable {t : ValueType} {x : t.Carrier} (h : t.Carried w₀ w x v)
    (ht : t.isPassable = true) (hx : t.Passable w₀ x) (hregular : w.types.Regular)
    (hb : w.Balanced P others) (hv : Borrowed w others v)
    (hbase : w₀.heap.cells.size ≤ w.heap.cells.size) :
    ∃ y w', decode t v w = (.ok y, w') ∧ w'.types = w.types ∧ t.Returned w₀ w' x y ∧
      t.Passable w' y ∧ w.Proceeds others w' ∧ w'.Balanced P (t.references y ++ others) := by
  obtain ⟨y, w', hrun, htypes, hback, hpass⟩ : ∃ y w', decode t v w = (.ok y, w') ∧
      w'.types = w.types ∧ t.Returned w₀ w' x y ∧ t.Passable w' y := by
    cases t with
    | option t =>
        cases x with
        | none =>
            cases (show v = _ from h)
            exact ⟨none, w, rfl, rfl, rfl, fun y hy => nomatch hy⟩
        | some x =>
            obtain ⟨hpass, hthere⟩ := hx x rfl
            obtain ⟨y, w', hrun, htypes, hback, hpass', hstill⟩ :=
              decode_of_direct h.1 ht hpass hregular hb hv hbase
            have hnull : v.isNull = false := by
              cases v with
              | null => exact absurd rfl h.2
              | _ => rfl
            refine ⟨some y, w', ?_, htypes, ⟨y, rfl, hback⟩, ?_⟩
            · rw [decode, hnull]
              exact run_map_of_ok hrun
            · rintro z hz
              cases hz
              exact ⟨hpass', hstill hthere⟩
    | _ =>
        obtain ⟨y, w', hrun, htypes, hback, hpass, -⟩ :=
          decode_of_direct h ht hx hregular hb hv hbase
        exact ⟨y, w', hrun, htypes, hback, hpass⟩
  obtain ⟨hsince, hb'⟩ := (conserves_decode t hb hv).ok y w' hrun
  have hlater : TypeTable.Later w.types w'.types := by
    rw [htypes]
    exact .refl hregular
  exact ⟨y, w', hrun, htypes, hback, hpass, ⟨hsince, hlater⟩, hb'⟩

/-! ## Values that are given up -/

theorem releasing_of_ok {α : Type} {x : Run κ α} {y : α} {ids : List ObjId}
    (hrun : x w = (.ok y, w')) :
    releasing ids x w = (.ok y, { w' with heap := ids.foldl Heap.release w'.heap }) := by
  simp only [releasing, andFinally, hrun]

theorem releasing_of_error {α : Type} {x : Run κ α} {fault : Fault} {ids : List ObjId}
    (hrun : x w = (.error fault, w')) :
    releasing ids x w = (.error fault, { w' with heap := ids.foldl Heap.release w'.heap }) := by
  simp only [releasing, andFinally, hrun]

/-- A value that carries a member is converted back and given up. -/
theorem release_of_passable {t : ValueType} {x : t.Carrier} (h : t.Carried w₀ w x v)
    (ht : t.isPassable = true) (hx : t.Passable w₀ x) (hregular : w.types.Regular)
    (hb : w.Balanced P (v.object?.toList ++ others))
    (hbase : w₀.heap.cells.size ≤ w.heap.cells.size) :
    ∃ y w', releasing v.object?.toList (decode t v) w = (.ok y, w') ∧ t.Returned w₀ w' x y ∧
      w.Proceeds others w' ∧ w'.Balanced P (t.references y ++ others) := by
  have hv : Borrowed w (v.object?.toList ++ others) v := fun id hid =>
    .of_mem (List.mem_append_left _ (Option.mem_toList.mpr hid))
  obtain ⟨y, w₁, hrun, -, hback, -, hproceeds, hb₁⟩ :=
    decode_of_passable h ht hx hregular hb hv hbase
  have hb₁' : w₁.Balanced P (v.object?.toList ++ (t.references y ++ others)) :=
    hb₁.perm (List.perm_append_comm_assoc _ _ _)
  obtain ⟨hreleased, hb₂⟩ := proceeds_releases hproceeds.later.regular hb₁'
  refine ⟨y, _, releasing_of_ok hrun, ?_, hproceeds.of_append.trans hreleased.of_append, hb₂⟩
  exact hback.later hreleased hb₁' (fun id hid => List.mem_append_right _ hid)
    fun id hid => .of_mem (List.mem_append_left _ hid)

end Run

end ObjectRuntime
