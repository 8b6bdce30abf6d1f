import ObjectRuntime.Function.Closure
import ObjectRuntime.Proofs.Container.Completion
import ObjectRuntime.Proofs.Container.Converted
import ObjectRuntime.Proofs.Container.WellTyped
import ObjectRuntime.Proofs.Number.Widening
import ObjectRuntime.Proofs.Text.Descriptions
import ObjectRuntime.Proofs.TypeTable.Serving
set_option autoImplicit false

/-!
# Members that become values

A member of a type goes over to a value by `Run.encode`.  The value carries the object of a
reference, or the number in its box, and nothing is lost on the way: `ValueType.Carried` says what
becomes of a member, and goes on holding while the value is held.
-/

namespace ObjectRuntime

open Heap (Intact)
open TypeTable (Later Regular Serves)
open World (Balanced Proceeds Since)

variable {κ : Type} {P : κ → Prop} {w w₀ w' : World κ} {others held : List ObjId} {a : ObjId}
  {c d : ObjectClass} {content : BoxContent}

/-! ## Boxes -/

namespace BoxContent

theorem cls_mem (content : BoxContent) :
    content.cls ∈ [ObjectClass.boxInt, .boxFloat, .boxBool] := by
  cases content with
  | int n => exact List.mem_cons_self
  | float x => exact List.mem_cons_of_mem _ List.mem_cons_self
  | bool b => exact List.mem_cons_of_mem _ (List.mem_cons_of_mem _ List.mem_cons_self)

theorem object?_value (content : BoxContent) : content.value.object? = none := by
  cases content <;> rfl

theorem cls_key_ne (content : BoxContent) : content.cls.key ≠ ObjectClass.rootKey := by
  cases content <;> (dsimp only [BoxContent.cls]; decide)

theorem boxedAs (content : BoxContent) :
    World.BoxedAs content.value content.cls (content.payload : Payload κ) := by
  cases content with
  | int n => exact .int n
  | float x => exact .float x
  | bool b => exact .bool b

end BoxContent

namespace World

theorem isInstance_of_classIndex? {first : Nat} (hc : w.types.classIndex? c = some first) :
    w.isInstance a c = w.types.isInstance (w.typeIndex a) first c := by
  rw [World.isInstance, hc]

/-- An object is a member of no final class but its own. -/
theorem isInstance_of_key_ne (hregular : w.types.Regular) (hclass : w.OfClass a c)
    (hfinal : d.isFinal = true) (hroot : d.key ≠ ObjectClass.rootKey) (hne : d.key ≠ c.key) :
    w.isInstance a d = false := by
  rw [Bool.eq_false_iff]
  intro hinstance
  exact hne (hregular.key_injective (ofClass_of_isInstance hregular hfinal hroot hinstance) hclass)

/-- A box travels as the number in it, unless the table has put its class below that of modules. -/
theorem classify_of_box (hregular : w.types.Regular)
    (hbox : w.ObjectAt a content.cls content.payload) (moved : Bool) :
    w.isInstance a .module = true ∨ w.classify a moved = content.value := by
  cases hmodule : w.isInstance a .module with
  | true => exact .inl rfl
  | false =>
      refine .inr ?_
      have hother : ∀ d ∈ [ObjectClass.tensor, .function, .boxBool, .boxInt, .boxFloat],
          d.key ≠ content.cls.key → w.isInstance a d = false := by
        have hfinal : ∀ d ∈ [ObjectClass.tensor, .function, .boxBool, .boxInt, .boxFloat],
            d.isFinal = true ∧ d.key ≠ ObjectClass.rootKey := by decide
        intro d hd hne
        exact isInstance_of_key_ne hregular hbox.cls (hfinal d hd).1 (hfinal d hd).2 hne
      have hself : w.isInstance a content.cls = true := isInstance_of_ofClass hbox.cls
      have htensor : w.isInstance a .tensor = false := by
        refine hother _ (by decide) ?_
        cases content <;> (dsimp only [BoxContent.cls]; decide)
      have hfunction : w.isInstance a .function = false := by
        refine hother _ (by decide) ?_
        cases content <;> (dsimp only [BoxContent.cls]; decide)
      have hboxed : w.boxed? a = some content.value := by
        unfold boxed?
        rw [hbox.content]
        cases content with
        | bool b =>
            simp only [BoxContent.cls] at hself
            simp [hself, BoxContent.payload, Payload.bool?, BoxContent.value]
        | int n =>
            simp only [BoxContent.cls] at hself hother
            have hbool : w.isInstance a .boxBool = false := hother _ (by decide) (by decide)
            simp [hself, hbool, BoxContent.payload, Payload.int?, BoxContent.value]
        | float x =>
            simp only [BoxContent.cls] at hself hother
            have hbool : w.isInstance a .boxBool = false := hother _ (by decide) (by decide)
            have hint : w.isInstance a .boxInt = false := hother _ (by decide) (by decide)
            simp [hself, hbool, hint, BoxContent.payload, Payload.double?, BoxContent.value]
      simp [classify, htensor, hmodule, hfunction, hboxed]

/-- What travels as a number is a box with this number, if boxes have contents of boxes. -/
theorem box_of_boxed? (hregular : w.types.Regular) {v : Value} (hboxed : w.boxed? a = some v)
    (hcontent : ∀ content : BoxContent, w.OfClass a content.cls →
      ∃ content' : BoxContent, content'.cls = content.cls ∧ w.payload? a = some content'.payload) :
    ∃ content : BoxContent, w.ObjectAt a content.cls content.payload ∧ v = content.value := by
  obtain ⟨payload, hpayload, hboxed⟩ := Option.bind_eq_some_iff.mp hboxed
  have hbox : ∀ content : BoxContent, w.isInstance a content.cls = true →
      ∃ content' : BoxContent, content'.cls = content.cls ∧ payload = content'.payload ∧
        w.ObjectAt a content'.cls content'.payload := by
    intro content hinstance
    have hclass : w.OfClass a content.cls :=
      ofClass_of_isInstance hregular (by cases content <;> rfl)
        content.cls_key_ne hinstance
    obtain ⟨content', hcls, hfound⟩ := hcontent content hclass
    exact ⟨content', hcls, Option.some.inj (hpayload.symm.trans hfound), hcls ▸ hclass, hfound⟩
  split_ifs at hboxed with hbool hint hfloat
  · obtain ⟨content, hcls, rfl, hat⟩ := hbox (.bool true) hbool
    cases content with
    | bool b => exact ⟨.bool b, hat, (Option.some.inj hboxed).symm⟩
    | int n => exact absurd hcls (show ObjectClass.boxInt ≠ .boxBool by decide)
    | float x => exact absurd hcls (show ObjectClass.boxFloat ≠ .boxBool by decide)
  · obtain ⟨content, hcls, rfl, hat⟩ := hbox (.int 0) hint
    cases content with
    | int n => exact ⟨.int n, hat, (Option.some.inj hboxed).symm⟩
    | bool b => exact absurd hcls (show ObjectClass.boxBool ≠ .boxInt by decide)
    | float x => exact absurd hcls (show ObjectClass.boxFloat ≠ .boxInt by decide)
  · obtain ⟨content, hcls, rfl, hat⟩ := hbox (.float ⟨0⟩) hfloat
    cases content with
    | float x => exact ⟨.float x, hat, (Option.some.inj hboxed).symm⟩
    | bool b => exact absurd hcls (show ObjectClass.boxBool ≠ .boxFloat by decide)
    | int n => exact absurd hcls (show ObjectClass.boxInt ≠ .boxFloat by decide)

/-! ## Objects to which references of a type may refer -/

/-- An object that others can reach keeps its type. -/
theorem Since.typeIndex (h : Since w others w') (hb : w.Balanced P held)
    (hsub : ∀ x ∈ others, x ∈ held) (ha : w.heap.Reachable others a) :
    w'.typeIndex a = w.typeIndex a := by
  obtain ⟨o, ho⟩ := hb.alive (ha.mono hsub)
  obtain ⟨n, hn⟩ := h.intact a o ha ho
  simp [World.typeIndex, ho, hn]

/-- It stays a member of the classes to which it belongs. -/
theorem Proceeds.isInstance (h : w.Proceeds others w') (hb : w.Balanced P held)
    (hsub : ∀ x ∈ others, x ∈ held) (ha : w.heap.Reachable others a)
    (hinstance : w.isInstance a c = true) : w'.isInstance a c = true := by
  have hcheck : w.mismatch? (.named c.key c) (some a) = none := by
    simp only [mismatch?, hinstance, if_true]
  refine isInstance_of_named (h.checked hb hsub ?_ hcheck)
  rintro x hx
  cases hx
  exact ha

/-- An object whose class has been looked up is of no class that is looked up later. -/
theorem OfClass.back (hc : w.OfClass a c) (hlater : Later w.types w'.types)
    (htype : w'.typeIndex a = w.typeIndex a) (hroot : d.key ≠ ObjectClass.rootKey)
    (hd : w'.OfClass a d) : w.OfClass a d := by
  have hd' : w'.types.classIndex? d = some (w.typeIndex a) := htype ▸ hd
  have hkey := hlater.regular.key_injective (hlater.classIndex? hc) hd'
  cases d with
  | root => exact absurd rfl hroot
  | derived decl base =>
      cases c with
      | root => exact absurd hkey.symm hroot
      | derived decl' base' =>
          have hsame : decl'.key = decl.key := hkey
          have hlookup : w.types.known.lookup decl'.key = some (w.typeIndex a) := hc
          rw [hsame] at hlookup
          exact hlookup

/-- A reference of the type may refer to the object: it passes the check and belongs to the class of
the type.  A box has a content of its kind, and is of the type by descent as well. -/
structure Referable (w : World κ) (t : RefType) (a : ObjId) : Prop where
  made : ∃ c, w.OfClass a c
  checked : w.mismatch? t (some a) = none
  member : w.isInstance a t.cls = true
  content : ∀ content : BoxContent, w.OfClass a content.cls →
    ∃ content' : BoxContent, content'.cls = content.cls ∧ w.payload? a = some content'.payload
  descends : ∀ content : BoxContent, w.OfClass a content.cls → ∀ first,
    w.types.classIndex? t.cls = some first → w.types.derivedFrom (w.typeIndex a) first = true

/-- It goes on being so while it is held. -/
theorem Referable.later {t : RefType} (h : w.Referable t a) (hproceeds : w.Proceeds others w')
    (hb : w.Balanced P held) (hsub : ∀ x ∈ others, x ∈ held) (ha : w.heap.Reachable others a) :
    w'.Referable t a := by
  have htype := hproceeds.since.typeIndex hb hsub ha
  have hpayload := hproceeds.since.payload? hb ha hsub
  obtain ⟨c, hc⟩ := h.made
  have hback : ∀ content : BoxContent, w'.OfClass a content.cls → w.OfClass a content.cls :=
    fun content => hc.back hproceeds.later htype content.cls_key_ne
  refine ⟨⟨c, ?_⟩, ?_, hproceeds.isInstance hb hsub ha h.member, fun content hclass => ?_,
    fun content hclass first hfirst => ?_⟩
  · rw [OfClass, htype]
    exact hproceeds.later.classIndex? hc
  · refine hproceeds.checked hb hsub ?_ h.checked
    rintro x hx
    cases hx
    exact ha
  · rw [hpayload]
    exact h.content content (hback content hclass)
  · obtain ⟨first', hfirst'⟩ := Run.classIndex?_of_isInstance h.member
    obtain rfl : first' = first :=
      Option.some.inj ((hproceeds.later.classIndex? hfirst').symm.trans hfirst)
    rw [htype]
    exact hproceeds.later.derivedFrom (h.descends content (hback content hclass) _ hfirst')

/-- A box of a class of which references of the type may be is one to which they may refer. -/
theorem referable_of_box {name : String} {first : Nat} (hregular : w.types.Regular)
    (hbox : w.ObjectAt a content.cls content.payload)
    (hfirst : w.types.classIndex? c = some first)
    (hmember : w.types.isInstance (w.typeIndex a) first c = true)
    (hdescends : w.types.derivedFrom (w.typeIndex a) first = true) :
    w.Referable (.named name c) a := by
  have hinstance : w.isInstance a c = true := (isInstance_of_classIndex? hfirst).trans hmember
  refine ⟨⟨_, hbox.cls⟩, by simp only [mismatch?, hinstance, if_true], hinstance,
    fun content' hclass => ⟨content, ?_, hbox.content⟩, fun content' _ first' hfirst' => ?_⟩
  · have hkeys : ∀ c ∈ [ObjectClass.boxInt, .boxFloat, .boxBool],
        ∀ c' ∈ [ObjectClass.boxInt, .boxFloat, .boxBool], c.key = c'.key → c = c' := by decide
    exact hkeys _ content.cls_mem _ content'.cls_mem (hregular.key_injective hbox.cls hclass)
  · obtain rfl := Option.some.inj (hfirst.symm.trans hfirst')
    exact hdescends

/-- What has become of a reference of a type that was held in an earlier world: nothing, a value that
carries the object, or the number in its box. -/
inductive Conveys (w₀ w : World κ) (t : RefType) : Ref → Value → Prop where
  | null : Conveys w₀ w t none .null
  /-- A box is carried as it is only if the table has put its class below that of modules. -/
  | object {a : ObjId} {tag : ObjectTag} (referable : w.Referable t a)
      (box : ∀ content : BoxContent, w₀.ObjectAt a content.cls content.payload →
        w.isInstance a .module = true) : Conveys w₀ w t (some a) (.object tag a)
  | number {a : ObjId} {name : String} {cls : ObjectClass} {first : Nat} (content : BoxContent)
      (box : w₀.ObjectAt a content.cls content.payload)
      (known : w.types.classIndex? content.cls = some (w₀.typeIndex a))
      (named : t = .named name cls) (index : w.types.classIndex? cls = some first)
      (member : w.types.isInstance (w₀.typeIndex a) first cls = true)
      (descends : w.types.derivedFrom (w₀.typeIndex a) first = true) :
      Conveys w₀ w t (some a) content.value

end World

namespace Run

/-! ## References -/

/-- A reference travels if the classes that tell how can be had. -/
theorem travel_of_serves (hserves : w.types.Serves travelClasses) (r : Ref) (moved : Bool) :
    ∃ w', travel r moved w = (.ok (w'.classifyRef r moved), w') ∧
      w'.types.Serves travelClasses := by
  cases r with
  | none => exact ⟨w, rfl, hserves⟩
  | some id =>
      have hright : ∀ c ∈ travelClasses, c.Rightful := covered_travelClasses covers_rightful
      obtain ⟨w', hask, hserves'⟩ := askClasses_of_serves hright hserves (fun _ hc => .inr hc) id
      refine ⟨w', ?_, hserves'⟩
      unfold travel
      exact run_bind_of_ok hask

/-- A box that is of a type is of a class of which the type is made. -/
theorem named_of_box {t : RefType} (h : w.Referable t a)
    (hbox : w.ObjectAt a content.cls content.payload) : ∃ name cls, t = .named name cls := by
  cases t with
  | named name cls => exact ⟨name, cls, rfl⟩
  | array elem =>
      obtain ⟨elems, helems⟩ := World.array_of_checked h.checked
      rw [hbox.content] at helems
      cases content <;> cases helems
  | map key value =>
      obtain ⟨entries, hentries⟩ := World.map_of_checked h.checked
      rw [hbox.content] at hentries
      cases content <;> cases hentries

/-- A reference goes over to a value. -/
theorem encodeRef_of_referable {t : RefType} {r : Ref} (hserves : w.types.Serves travelClasses)
    (hr : ∀ a, r = some a → w.Referable t a) (hb : w.Balanced P (r.toList ++ others))
    (moved : Bool) : ∃ v w', encodeRef r moved w = (.ok v, w') ∧ w.Conveys w' t r v ∧
      w'.types.Serves travelClasses := by
  obtain ⟨w₁, htravel, hserves₁⟩ := travel_of_serves hserves r moved
  have htravels : Conserves P w (r.toList ++ others) (fun _ => []) [] (travel r moved) :=
    (quiet_travel r moved).conserves [] hb
  obtain ⟨hproceeds, hb₁⟩ :=
    htravels.proceeds (advances_travel covers_rightful r moved) hserves.regular htravel
  have hheld : releasingOnFault r.toList (travel r moved) w = (.ok (w₁.classifyRef r moved), w₁) :=
    releasingOnFault_of_ok htravel
  unfold encodeRef
  rw [run_bind_of_ok hheld]
  cases r with
  | none => exact ⟨.null, w₁, rfl, .null, hserves₁⟩
  | some a =>
      have hall : ∀ x ∈ (some a).toList ++ others, x ∈ (some a).toList ++ others := fun _ hx => hx
      have ha : w.heap.Reachable ((some a).toList ++ others) a := .of_mem List.mem_cons_self
      have hreferable := (hr a rfl).later hproceeds hb hall ha
      have hregular := hproceeds.later.regular
      rcases World.classify_cases w₁ a moved with ⟨tag, hclassify⟩ | ⟨x, hboxed, hclassify⟩
      · refine ⟨.object tag a, w₁, ?_, .object hreferable ?_, hserves₁⟩
        · simp only [World.classifyRef, hclassify]
          rfl
        · intro content hbox
          rcases World.classify_of_box hregular (hbox.since hproceeds.since ha) moved with h | h
          · exact h
          · rw [hclassify] at h
            cases content <;> cases h
      · obtain ⟨content, hbox, rfl⟩ := World.box_of_boxed? hregular hboxed hreferable.content
        obtain ⟨name, cls, rfl⟩ := named_of_box hreferable hbox
        obtain ⟨first, hfirst⟩ := classIndex?_of_isInstance hreferable.member
        have htype := hproceeds.since.typeIndex hb hall ha
        obtain ⟨c, hc⟩ := (hr a rfl).made
        have hold : w.ObjectAt a content.cls content.payload := by
          refine ⟨hc.back hproceeds.later htype content.cls_key_ne hbox.cls, ?_⟩
          rw [← hproceeds.since.payload? hb ha hall]
          exact hbox.content
        have hmember : w₁.types.isInstance (w.typeIndex a) first cls = true := by
          have hinstance := hreferable.member
          rw [World.isInstance_of_classIndex? hfirst, htype] at hinstance
          exact hinstance
        refine ⟨content.value, { w₁ with heap := [a].foldl Heap.release w₁.heap }, ?_,
          .number content hold (htype ▸ hbox.cls) rfl hfirst hmember
            (htype ▸ hreferable.descends content hbox.cls first hfirst), hserves₁⟩
        simp only [World.classifyRef, hclassify, content.object?_value]
        rfl

end Run

/-! ## Members -/

namespace ValueType

/-- The types whose members travel as values: numbers, truth values, texts, bytes, data types, devices
and references. -/
def isDirect : ValueType → Bool
  | .int _ | .f32 | .f64 | .bool | .text | .bytes | .dataType | .device | .ref _ => true
  | .rawDevice | .handle | .tensorHandle | .unit | .any | .option _ | .variant _ _ => false

/-- Those types and what is optional of them. -/
def isPassable : ValueType → Bool
  | .option t => t.isDirect
  | t => t.isDirect

/-- The member can be passed: an integer is no larger than those of values, the number of a device
has no more than 31 bits, and an object is one to which references of the type refer.  What is
optional and there is not nothing. -/
def Passable (w : World κ) : (t : ValueType) → t.Carrier → Prop
  | .int _, n => n.val ≤ IntKind.i64.max
  | .device, d => d.unit.val < 2 ^ 31
  | .ref t, r => ∀ a, r = some a → w.Referable t a
  | .option t, x => ∀ y, x = some y → t.Passable w y ∧ t.fieldValue y ≠ .null
  | _, _ => True

/-- What has become of a member of a type that was held in an earlier world. -/
def Carried (w₀ w : World κ) : (t : ValueType) → t.Carrier → Value → Prop
  | .ref t, r, v => w₀.Conveys w t r v
  | .option t, some x, v => t.Carried w₀ w x v ∧ v ≠ .null
  | t, x, v => v = t.fieldValue x

/-- What is there becomes a value that is there. -/
theorem Carried.ne_null {t : ValueType} {x : t.Carrier} {v : Value} (h : t.Carried w₀ w x v)
    (ht : t.isDirect = true) (hx : t.fieldValue x ≠ .null) : v ≠ .null := by
  cases t with
  | ref t =>
      cases h with
      | null => exact hx
      | object => exact Value.noConfusion
      | number content => cases content <;> exact Value.noConfusion
  | int | f32 | f64 | bool | text | bytes | dataType | device =>
      cases (show v = _ from h)
      exact hx
  | _ => cases ht

end ValueType

/-- A number that is not too large for a value is one of its integers. -/
theorem MachineInt.ofInt?_of_le {k : IntKind} {n : MachineInt k} (h : n.val ≤ IntKind.i64.max) :
    MachineInt.ofInt? .i64 n.val = some (MachineInt.wrap .i64 n.val) := by
  have hmin : IntKind.i64.min ≤ k.min := by cases k <;> decide
  have hfits : IntKind.i64.Fits n.val := ⟨hmin.trans n.fits.1, h⟩
  have hwrap : MachineInt.wrap .i64 n.val = ⟨n.val, hfits⟩ :=
    MachineInt.wrap_val (⟨n.val, hfits⟩ : MachineInt .i64)
  rw [hwrap]
  exact dif_pos hfits

namespace Run

theorem advances_encode {S : ObjectClass → Prop} (hS : ObjectClass.Covers S) (t : ValueType)
    (x : t.Carrier) : Advances S (encode t x : Run κ Value) := by
  induction t with
  | int k =>
      rw [encode]
      split
      · exact advances_pure _
      · exact advances_throw _
  | f32 | f64 | bool | text | bytes | dataType | device | rawDevice | handle | tensorHandle |
      unit | any => exact advances_pure _
  | ref t => exact advances_encodeRef hS x false
  | option t ih =>
      cases x with
      | none => exact advances_pure _
      | some x => exact ih x
  | variant a b iha ihb =>
      cases x with
      | inl x => exact iha x
      | inr x => exact ihb x

theorem encode_of_direct {t : ValueType} {x : t.Carrier} (ht : t.isDirect = true)
    (hx : t.Passable w x) (hserves : w.types.Serves travelClasses)
    (hb : w.Balanced P (t.references x ++ others)) :
    ∃ v w', encode t x w = (.ok v, w') ∧ t.Carried w w' x v ∧ w'.types.Serves travelClasses := by
  cases t with
  | ref t => exact encodeRef_of_referable hserves hx hb false
  | int k =>
      refine ⟨.int (MachineInt.wrap .i64 x.val), w, ?_, rfl, hserves⟩
      rw [encode, MachineInt.ofInt?_of_le hx]
      rfl
  | f32 | f64 | bool | text | bytes | dataType | device => exact ⟨_, w, rfl, rfl, hserves⟩
  | _ => cases ht

/-- A member that can be passed goes over to a value that carries it. -/
theorem encode_of_passable {t : ValueType} {x : t.Carrier} (ht : t.isPassable = true)
    (hx : t.Passable w x) (hserves : w.types.Serves travelClasses)
    (hb : w.Balanced P (t.references x ++ others)) :
    ∃ v w', encode t x w = (.ok v, w') ∧ t.Carried w w' x v ∧ w'.types.Serves travelClasses ∧
      w.Proceeds others w' ∧ w'.Balanced P (v.object?.toList ++ others) := by
  obtain ⟨v, w', hrun, hcarried, hserves'⟩ : ∃ v w', encode t x w = (.ok v, w') ∧
      t.Carried w w' x v ∧ w'.types.Serves travelClasses := by
    cases t with
    | option t =>
        cases x with
        | none => exact ⟨.null, w, rfl, rfl, hserves⟩
        | some x =>
            obtain ⟨hpass, hthere⟩ := hx x rfl
            obtain ⟨v, w', hrun, hcarried, hserves'⟩ := encode_of_direct ht hpass hserves hb
            exact ⟨v, w', hrun, ⟨hcarried, hcarried.ne_null ht hthere⟩, hserves'⟩
    | _ => exact encode_of_direct ht hx hserves hb
  obtain ⟨hproceeds, hb'⟩ := (conserves_encode t x hb).proceeds
    (advances_encode covers_rightful t x) hserves.regular hrun
  exact ⟨v, w', hrun, hcarried, hserves', hproceeds, hb'⟩

end Run

/-! ## Values that are held -/

/-- What a reference has become does not change while the value is held. -/
theorem World.Conveys.later {t : RefType} {r : Ref} {v : Value} (h : w₀.Conveys w t r v)
    (hproceeds : w.Proceeds others w') (hb : w.Balanced P held) (hsub : ∀ x ∈ others, x ∈ held)
    (hv : Run.Borrowed w others v) : w₀.Conveys w' t r v := by
  cases h with
  | null => exact .null
  | @object a tag referable box =>
      have ha : w.heap.Reachable others a := hv a rfl
      exact .object (referable.later hproceeds hb hsub ha)
        fun content hbox => hproceeds.isInstance hb hsub ha (box content hbox)
  | number content box known named index member descends =>
      exact .number content box (hproceeds.later.classIndex? known) named
        (hproceeds.later.classIndex? index) (hproceeds.later.isInstance member)
        (hproceeds.later.derivedFrom descends)

namespace ValueType

theorem Carried.later {t : ValueType} {x : t.Carrier} {v : Value} (h : t.Carried w₀ w x v)
    (hproceeds : w.Proceeds others w') (hb : w.Balanced P held) (hsub : ∀ x ∈ others, x ∈ held)
    (hv : Run.Borrowed w others v) : t.Carried w₀ w' x v := by
  induction t with
  | ref t => exact World.Conveys.later h hproceeds hb hsub hv
  | option t ih =>
      cases x with
      | none => exact h
      | some x => exact ⟨ih h.1, h.2⟩
  | _ => exact h

end ValueType

/-! ## The world in which a member was held -/

/-- The references of a member are held by others until it goes over to a value, so the value might as
well have come of it earlier. -/
theorem World.Conveys.since {t : RefType} {r : Ref} {v : Value} (h : w.Conveys w' t r v)
    (hproceeds : w₀.Proceeds others w) (hb : w₀.Balanced P held) (hsub : ∀ x ∈ others, x ∈ held)
    (hr : ∀ a, r = some a → w₀.heap.Reachable others a)
    (hreferable : ∀ a, r = some a → w₀.Referable t a) : w₀.Conveys w' t r v := by
  cases h with
  | null => exact .null
  | @object a tag referable box =>
      exact .object referable fun content hbox => box content (hbox.since hproceeds.since (hr a rfl))
  | @number a name cls first content box known named index member descends =>
      have ha := hr a rfl
      have htype := hproceeds.since.typeIndex hb hsub ha
      obtain ⟨c, hc⟩ := (hreferable a rfl).made
      rw [htype] at known member descends
      refine .number content ⟨?_, ?_⟩ known named index member descends
      · exact hc.back hproceeds.later htype content.cls_key_ne box.cls
      · rw [← hproceeds.since.payload? hb ha hsub]
        exact box.content

namespace ValueType

theorem Carried.since {t : ValueType} {x : t.Carrier} {v : Value} (h : t.Carried w w' x v)
    (hproceeds : w₀.Proceeds others w) (hb : w₀.Balanced P held) (hsub : ∀ x ∈ others, x ∈ held)
    (hx : ∀ id ∈ t.references x, w₀.heap.Reachable others id) (hpass : t.Passable w₀ x) :
    t.Carried w₀ w' x v := by
  induction t with
  | ref t =>
      refine World.Conveys.since h hproceeds hb hsub (fun a ha => hx a ?_) hpass
      simp [references, ha]
  | option t ih =>
      cases x with
      | none => exact h
      | some x => exact ⟨ih h.1 hx (hpass x rfl).1, h.2⟩
  | _ => exact h

/-- A member that is held can still be passed later. -/
theorem Passable.later {t : ValueType} {x : t.Carrier} (h : t.Passable w x)
    (hproceeds : w.Proceeds others w') (hb : w.Balanced P held) (hsub : ∀ x ∈ others, x ∈ held)
    (hx : ∀ id ∈ t.references x, w.heap.Reachable others id) : t.Passable w' x := by
  induction t with
  | ref t =>
      intro a ha
      refine (h a ha).later hproceeds hb hsub (hx a ?_)
      simp [references, ha]
  | option t ih =>
      rintro y rfl
      exact ⟨ih (h y rfl).1 hx, (h y rfl).2⟩
  | _ => exact h

end ValueType

/-! ## Arguments and results -/

/-- The value is changed in its tag only. -/
structure Value.Retags (f : Value → Value) : Prop where
  object : ∀ tag id, ∃ tag', f (.object tag id) = .object tag' id
  plain : ∀ {v : Value}, v.object? = none → f v = v

theorem Value.retags_asArgument : Value.Retags Value.asArgument where
  object tag id := by cases tag <;> exact ⟨_, rfl⟩
  plain {v} hv := by
    cases v with
    | object tag id => cases hv
    | _ => rfl

theorem Value.retags_asResult : Value.Retags Value.asResult where
  object tag id := by cases tag <;> exact ⟨_, rfl⟩
  plain {v} hv := by
    cases v with
    | object tag id => cases hv
    | _ => rfl

theorem Value.Retags.object?_eq {f : Value → Value} (hf : Value.Retags f) (v : Value) :
    (f v).object? = v.object? := by
  cases hv : v.object? with
  | none => rw [hf.plain hv, hv]
  | some id =>
      cases v with
      | object tag id' =>
          cases hv
          obtain ⟨tag', htag⟩ := hf.object tag id
          rw [htag]
          rfl
      | _ => cases hv

/-- A reference is conveyed under any tag. -/
theorem World.Conveys.retag {t : RefType} {r : Ref} {v : Value} {f : Value → Value}
    (h : w₀.Conveys w t r v) (hf : Value.Retags f) : w₀.Conveys w t r (f v) := by
  cases h with
  | null =>
      rw [hf.plain rfl]
      exact .null
  | @object a tag referable box =>
      obtain ⟨tag', htag⟩ := hf.object tag a
      rw [htag]
      exact .object referable box
  | number content box known named index member descends =>
      rw [hf.plain content.object?_value]
      exact .number content box known named index member descends

namespace ValueType

theorem Carried.retag_direct {t : ValueType} {x : t.Carrier} {v : Value} {f : Value → Value}
    (h : t.Carried w₀ w x v) (hf : Value.Retags f) (ht : t.isDirect = true) :
    t.Carried w₀ w x (f v) := by
  cases t with
  | ref t => exact World.Conveys.retag h hf
  | int | f32 | f64 | bool | text | bytes | dataType | device =>
      cases (show v = _ from h)
      exact hf.plain rfl
  | _ => cases ht

/-- A member is carried under any tag. -/
theorem Carried.retag {t : ValueType} {x : t.Carrier} {v : Value} {f : Value → Value}
    (h : t.Carried w₀ w x v) (hf : Value.Retags f) (ht : t.isPassable = true) :
    t.Carried w₀ w x (f v) := by
  cases t with
  | option t =>
      cases x with
      | none =>
          cases (show v = _ from h)
          exact hf.plain rfl
      | some x =>
          refine ⟨Carried.retag_direct h.1 hf ht, fun hnull => h.2 ?_⟩
          cases hv : v.object? with
          | none => rwa [hf.plain hv] at hnull
          | some id =>
              have hid := hf.object?_eq v
              rw [hnull, hv] at hid
              cases hid
  | _ => exact Carried.retag_direct h hf ht

end ValueType

end ObjectRuntime
