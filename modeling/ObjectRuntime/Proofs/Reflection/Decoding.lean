import ObjectRuntime.Proofs.Reflection.Building
import ObjectRuntime.Proofs.Reflection.Objects
set_option autoImplicit false

/-!
# Copies as values of fields

A copy of an object is of every static type that the object is of, so a field takes it as it is, or
as a new copy if it is a box.
-/

namespace ObjectRuntime

open Heap (Grown Backed)
open Relation (ReflTransGen)
open World (CopyOf)

variable {κ α : Type} {w : World κ} {h : Heap κ} {a b : ObjId} {t : RefType} {c : ObjectClass}
  {held : List ObjId}

namespace World

theorem CopyOf.typeIndex (hcopy : CopyOf w h a b) :
    (w.withHeap h).typeIndex b = w.typeIndex a := by
  obtain ⟨o, ho, htype, -⟩ := hcopy.step
  simp [World.typeIndex, ho, htype]

theorem CopyOf.isInstance (hcopy : CopyOf w h a b) (c : ObjectClass) :
    (w.withHeap h).isInstance b c = w.isInstance a c :=
  (w.sameClasses_withHeap h).isInstance hcopy.typeIndex c

theorem CopyOf.payload? (hcopy : CopyOf w h a b) :
    ∃ payload, (w.withHeap h).payload? b = some payload ∧
      PayloadCopy w (CopyOf w h) a payload := by
  obtain ⟨o, ho, -, hpayload⟩ := hcopy.step
  exact ⟨o.payload, by simp [World.payload?, ho], hpayload⟩

theorem CopyOf.answered (hcopy : CopyOf w h a b) {cs : List ObjectClass}
    (hcs : w.Answered a cs) : (w.withHeap h).Answered b cs := by
  rw [Answered, hcopy.typeIndex]
  exact hcs

/-- A copy of an array is an array of copies. -/
theorem PayloadCopy.array_inv {R : ObjId → ObjId → Prop} {payload : Payload κ} {elems : List Ref}
    (hcopy : PayloadCopy w R a payload) (hcontent : w.payload? a = some (.array elems)) :
    ∃ elems', payload = .array elems' ∧ List.Forall₂ (RefRel R) elems elems' := by
  cases hcopy with
  | array elems₀ elems' content copies =>
      rw [content] at hcontent
      cases hcontent
      exact ⟨elems', rfl, copies⟩
  | node schema values values' reflected content copies =>
      rw [content] at hcontent
      rcases Schema.payload_cases (κ := κ) schema values with
        h | ⟨n, -, -, h⟩ | ⟨x, -, -, h⟩ | ⟨b, -, -, h⟩
      all_goals
        rw [h] at hcontent
        cases hcontent
  | text s content | shape s content | map s s' content | tensor t u d content =>
      rw [content] at hcontent
      cases hcontent

/-- A copy of a map is a map of copies. -/
theorem PayloadCopy.map_inv {R : ObjId → ObjId → Prop} {payload : Payload κ}
    {entries : List (Ref × Ref)} (hcopy : PayloadCopy w R a payload)
    (hcontent : w.payload? a = some (.map entries)) :
    ∃ entries', payload = .map entries' ∧ List.Forall₂ (EntryCopy R) entries entries' := by
  cases hcopy with
  | map entries₀ entries' content copies =>
      rw [content] at hcontent
      cases hcontent
      exact ⟨entries', rfl, copies⟩
  | node schema values values' reflected content copies =>
      rw [content] at hcontent
      rcases Schema.payload_cases (κ := κ) schema values with
        h | ⟨n, -, -, h⟩ | ⟨x, -, -, h⟩ | ⟨b, -, -, h⟩
      all_goals
        rw [h] at hcontent
        cases hcontent
  | text s content | shape s content | array s s' content | tensor t u d content =>
      rw [content] at hcontent
      cases hcontent

/-! ## Checks of copies -/

/-- All elements pass if there is no first one that does not. -/
theorem firstMismatch_eq_none {check : Ref → Option String} {i : Nat} {rs : List Ref} :
    firstMismatch check i rs = none ↔ ∀ r ∈ rs, check r = none := by
  induction rs generalizing i with
  | nil => simp [firstMismatch]
  | cons r rs ih =>
      rw [firstMismatch, List.forall_mem_cons, ← ih (i := i + 1)]
      cases check r with
      | none => simp
      | some m => simp

theorem mismatch?_none (w : World κ) (t : RefType) : w.mismatch? t none = none := by
  cases t <;> rfl

end World

namespace Run

/-- Nothing changes if asking about each thing changes nothing. -/
theorem askWhile_of_passes {ask : α → Run κ Unit} {passes : World κ → α → Bool} {as : List α}
    {v : World κ} (has : ∀ a ∈ as, ask a v = (.ok (), v) ∧ passes v a = true) :
    askWhile ask passes as v = (.ok (), v) := by
  induction as with
  | nil => rfl
  | cons a as ih =>
      obtain ⟨⟨hask, hpass⟩, has⟩ := List.forall_mem_cons.mp has
      rw [askWhile, run_bind_of_ok hask, run_get_bind, hpass, if_pos rfl]
      exact ih has

end Run

namespace World

/-- The classes of arrays and maps below an object have been looked up. -/
def ContainersKnown (w : World κ) (a : ObjId) : Prop :=
  ∀ x, ReflTransGen w.Refers a x →
    (∀ elems, w.payload? x = some (.array elems) → w.OfClass x .array) ∧
      ∀ entries, w.payload? x = some (.map entries) → w.OfClass x .map

theorem ContainersKnown.below (hknown : w.ContainersKnown a) (hab : w.Refers a b) :
    w.ContainersKnown b := fun x hx => hknown x (.head hab hx)

theorem answered_of_ofClass (hclass : w.OfClass a c) : w.Answered a [c] :=
  ⟨_, hclass, .inr trivial⟩

theorem answered_of_isInstance (hinstance : w.isInstance a c = true) : w.Answered a [c] := by
  unfold World.isInstance at hinstance
  split at hinstance
  · rename_i first hfirst
    exact ⟨first, hfirst, .inr trivial⟩
  · cases hinstance

/-- The reference is of the static type, and asking about it changes nothing. -/
def Passes (v : World κ) (t : RefType) (r : Ref) : Prop :=
  Run.askType t r v = (.ok (), v) ∧ v.mismatch? t r = none

/-- Copied references are of the static types that copied objects are of. -/
theorem passes_ref (hobject : ∀ a b, CopyOf w h a b → w.ContainersKnown a →
      w.mismatch? t (some a) = none → (w.withHeap h).Passes t (some b)) {r r' : Ref}
    (hcopy : RefRel (CopyOf w h) r r') (hknown : ∀ x, r = some x → w.ContainersKnown x)
    (hchecked : w.mismatch? t r = none) : (w.withHeap h).Passes t r' := by
  cases r with
  | none =>
      cases r' with
      | none => exact ⟨by cases t <;> rfl, mismatch?_none _ t⟩
      | some b => exact hcopy.elim
  | some a =>
      cases r' with
      | none => exact hcopy.elim
      | some b => exact hobject a b hcopy (hknown a rfl) hchecked

theorem isInstance_of_named {name : String} (hchecked : w.mismatch? (.named name c) (some a) = none) :
    w.isInstance a c = true := by
  simp only [mismatch?] at hchecked
  split at hchecked
  · assumption
  · cases hchecked

theorem array_of_checked {elem : RefType} (hchecked : w.mismatch? (.array elem) (some a) = none) :
    ∃ elems, w.payload? a = some (.array elems) := by
  simp only [mismatch?] at hchecked
  split at hchecked
  · exact ⟨_, ‹_›⟩
  · cases hchecked

theorem map_of_checked {key value : RefType}
    (hchecked : w.mismatch? (.map key value) (some a) = none) :
    ∃ entries, w.payload? a = some (.map entries) := by
  simp only [mismatch?] at hchecked
  split at hchecked
  · exact ⟨_, ‹_›⟩
  · cases hchecked

/-- No entry of a map has a mismatch if none is found. -/
theorem mismatch?_map_eq_none {key value : RefType} {entries : List (Ref × Ref)}
    (hcontent : w.payload? a = some (.map entries)) :
    w.mismatch? (.map key value) (some a) = none ↔
      ∀ e ∈ entries, w.mismatch? key e.1 = none ∧ w.mismatch? value e.2 = none := by
  simp only [mismatch?, hcontent, List.findSome?_eq_none_iff]
  refine forall₂_congr fun e _ => ?_
  cases w.mismatch? key e.1 with
  | none => simp
  | some m => simp

/-- A copy is of the static types that the object is of, and asking about it changes nothing. -/
theorem CopyOf.passes (hcopy : CopyOf w h a b) (hknown : w.ContainersKnown a)
    (hchecked : w.mismatch? t (some a) = none) : (w.withHeap h).Passes t (some b) := by
  induction t generalizing a b with
  | named name cls =>
      have hinstance := isInstance_of_named hchecked
      refine ⟨Run.askClasses_of_answered (hcopy.answered (answered_of_isInstance hinstance)), ?_⟩
      simp only [mismatch?, hcopy.isInstance, hinstance, if_true]
  | array elem ih =>
      simp only [mismatch?] at hchecked
      split at hchecked
      · rename_i elems hcontent
        obtain ⟨payload, hpayload, hpayloads⟩ := hcopy.payload?
        obtain ⟨elems', rfl, helems⟩ := hpayloads.array_inv hcontent
        have hclass := (hknown a .refl).1 elems hcontent
        have hnone := firstMismatch_eq_none.mp (Option.map_eq_none_iff.mp hchecked)
        have hall : ∀ r' ∈ elems', (w.withHeap h).Passes elem r' := by
          intro r' hr'
          obtain ⟨r, hr, hrr'⟩ := exists_mem_of_forall₂ helems hr'
          refine passes_ref (fun x y => ih) hrr' (fun x hx => ?_) (hnone r hr)
          exact hknown.below (refers_of_element hcontent (hx ▸ hr))
        refine ⟨?_, ?_⟩
        · rw [Run.askType, run_bind_of_ok
            (Run.askClasses_of_answered (hcopy.answered (answered_of_ofClass hclass))), run_get_bind]
          refine Run.askWhile_of_passes fun r' hr' => ?_
          have hmem : r' ∈ elems' := by simpa [elements, hpayload] using hr'
          exact ⟨(hall r' hmem).1, Option.isNone_iff_eq_none.mpr (hall r' hmem).2⟩
        · simp only [mismatch?, hpayload]
          rw [firstMismatch_eq_none.mpr fun r' hr' => (hall r' hr').2]
          rfl
      · cases hchecked
  | map key value ihKey ihValue =>
      cases hcontent : w.payload? a with
      | none => simp [mismatch?, hcontent] at hchecked
      | some content =>
          cases content with
          | map entries =>
              obtain ⟨payload, hpayload, hpayloads⟩ := hcopy.payload?
              obtain ⟨entries', rfl, hentries⟩ := hpayloads.map_inv hcontent
              have hclass := (hknown a .refl).2 entries hcontent
              have hnone := (mismatch?_map_eq_none hcontent).mp hchecked
              have hall : ∀ e' ∈ entries',
                  (w.withHeap h).Passes key e'.1 ∧ (w.withHeap h).Passes value e'.2 := by
                intro e' he'
                obtain ⟨e, he, hkey, hvalue⟩ := exists_mem_of_forall₂ hentries he'
                have hbelow : ∀ x, e.1 = some x ∨ e.2 = some x → w.ContainersKnown x := by
                  intro x hx
                  refine hknown.below ⟨_, hcontent, List.mem_flatMap.mpr ⟨e, he, ?_⟩⟩
                  rcases hx with hx | hx <;> simp [hx]
                exact ⟨passes_ref (fun x y => ihKey) hkey (fun x hx => hbelow x (.inl hx))
                    (hnone e he).1,
                  passes_ref (fun x y => ihValue) hvalue (fun x hx => hbelow x (.inr hx))
                    (hnone e he).2⟩
              refine ⟨?_, (mismatch?_map_eq_none hpayload).mpr fun e' he' =>
                ⟨(hall e' he').1.2, (hall e' he').2.2⟩⟩
              rw [Run.askType, run_bind_of_ok (Run.askClasses_of_answered
                (hcopy.answered (answered_of_ofClass hclass))), run_get_bind]
              refine Run.askWhile_of_passes fun e' he' => ?_
              have hmem : e' ∈ entries' := by simpa [World.entries, hpayload] using he'
              obtain ⟨⟨haskKey, hkey⟩, haskValue, hvalue⟩ := hall e' hmem
              refine ⟨?_, by simp [hkey, hvalue]⟩
              rw [run_bind_of_ok haskKey, run_get_bind, hkey]
              exact haskValue
          | _ => simp [mismatch?, hcontent] at hchecked

/-- A reference more makes an object no member of another class. -/
theorem isInstance_retain (v : World κ) (a b : ObjId) (c : ObjectClass) :
    (v.withHeap (v.heap.retain a)).isInstance b c = v.isInstance b c := by
  have htype : (v.withHeap (v.heap.retain a)).typeIndex b = v.typeIndex b := by
    cases ho : v.heap.get? a with
    | none => simp [World.typeIndex, World.withHeap, Heap.retain, ho]
    | some o =>
        by_cases hb : b = a
        · subst hb
          simp [World.typeIndex, World.withHeap, Heap.retain, ho, Heap.get?_set_self ho]
        · simp [World.typeIndex, World.withHeap, Heap.retain, ho, Heap.get?_set_of_ne hb]
  exact (v.sameClasses_withHeap _).isInstance htype c

/-! ## Boxes -/

theorem isInstance_root (w : World κ) (id : ObjId) : w.isInstance id .root = true := rfl

/-- An object of a class belongs to it. -/
theorem isInstance_of_ofClass (hclass : w.OfClass a c) : w.isInstance a c = true := by
  rw [World.isInstance, hclass]
  simp only [TypeTable.isInstance]
  split_ifs <;> simp_all

/-- Only objects of a class without subtypes belong to it. -/
theorem ofClass_of_isInstance (hregular : w.types.Regular) (hfinal : c.isFinal = true)
    (hkey : c.key ≠ ObjectClass.rootKey) (hinstance : w.isInstance a c = true) :
    w.OfClass a c := by
  unfold World.isInstance at hinstance
  split at hinstance
  · rename_i first hfirst
    have hroot : first ≠ TypeTable.rootIndex := by
      rintro rfl
      exact hkey (hregular.key_injective hfirst (show w.types.classIndex? .root = _ from rfl))
    rw [TypeTable.isInstance, if_neg hroot, if_pos hfinal, beq_iff_eq] at hinstance
    rw [OfClass, hfirst, hinstance]
  · cases hinstance

/-- A number, the class of its box and the content of the box. -/
inductive BoxedAs : Value → ObjectClass → Payload κ → Prop
  | int (n : I64) : BoxedAs (.int n) .boxInt (.boxInt n)
  | float (x : Double) : BoxedAs (.float x) .boxFloat (.boxFloat x)
  | bool (b : Bool) : BoxedAs (.bool b) .boxBool (.boxBool b)

/-- A box is one of several with its content. -/
theorem isLoose_of_box {x : Value} {payload : Payload κ} (hbox : BoxedAs x c payload)
    (hclass : w.OfClass a c) : w.IsLoose a := by
  refine .inr ?_
  cases hbox with
  | int n => exact ⟨.box .boxInt (.int .i64), by decide, hclass⟩
  | float x => exact ⟨.box .boxFloat .f64, by decide, hclass⟩
  | bool b => exact ⟨.box .boxBool .bool, by decide, hclass⟩

/-- A built-in schema is found at the index of its class. -/
theorem schemaOf?_box (hregular : w.types.Regular) {schema : Schema}
    (hschema : schema ∈ Schema.builtins) (hclass : w.OfClass a schema.cls) :
    w.schemaOf? a = some schema := by
  have hkeys : ∀ s ∈ Schema.builtins, ∀ s' ∈ Schema.builtins,
      s.cls.key = s'.cls.key → s = s' := by decide
  have hfind : Schema.builtins.reverse.find?
      (fun s => w.types.classIndex? s.cls == some (w.typeIndex a)) = some schema := by
    cases hfound : Schema.builtins.reverse.find?
        (fun s => w.types.classIndex? s.cls == some (w.typeIndex a)) with
    | none =>
        have hnone := List.find?_eq_none.mp hfound schema (List.mem_reverse.mpr hschema)
        exact absurd (beq_iff_eq.mpr hclass) hnone
    | some s =>
        have hs := List.mem_reverse.mp (List.mem_of_find?_eq_some hfound)
        have hindex := List.find?_some hfound
        rw [hkeys s hs schema hschema (hregular.key_injective (beq_iff_eq.mp hindex) hclass)]
  simp only [schemaOf?, schemaAt?, hfind]

/-- A copy of an object of a reflected class has copies of its values. -/
theorem PayloadCopy.node_inv {R : ObjId → ObjId → Prop} {payload : Payload κ} {schema : Schema}
    {values : List Value} (hcopy : PayloadCopy w R a payload)
    (hschema : w.schemaOf? a = some schema)
    (hcontent : w.payload? a = some (schema.payload values)) :
    ∃ values', payload = schema.payload values' ∧ List.Forall₂ (ValueCopy R) values values' := by
  obtain ⟨htext, hshape, htensor, helements, hentries⟩ := nothing_plain hcontent
  have hother : ∀ content : Payload κ, w.payload? a = some content →
      content = schema.payload values := by
    intro content hc
    rw [hcontent] at hc
    exact (Option.some.inj hc).symm
  cases hcopy with
  | node schema' values₀ values' reflected content copies =>
      rw [hschema] at reflected
      cases reflected
      have hvalues := congrArg schema.values (hother _ content)
      simp only [Schema.values_payload] at hvalues
      exact ⟨values', rfl, hvalues ▸ copies⟩
  | text s content => simp [text?, content] at htext
  | shape dims content => simp [shape?, content] at hshape
  | tensor t unit data content => simp [tensor?, content] at htensor
  | array elems elems' content =>
      rcases Schema.payload_cases (κ := κ) schema values with
        h | ⟨n, -, -, h⟩ | ⟨x, -, -, h⟩ | ⟨b, -, -, h⟩
      all_goals cases (hother _ content).trans h
  | map entries entries' content =>
      rcases Schema.payload_cases (κ := κ) schema values with
        h | ⟨n, -, -, h⟩ | ⟨x, -, -, h⟩ | ⟨b, -, -, h⟩
      all_goals cases (hother _ content).trans h

/-- An object of the class of a box has the content of such an object. -/
theorem IsMade.box_content (hmade : w.IsMade a) (hregular : w.types.Regular) {schema : Schema}
    (hschema : schema ∈ Schema.builtins) (hclass : w.OfClass a schema.cls) :
    ∃ values, w.payload? a = some (schema.payload values) ∧
      List.Forall₂ (fun f v => w.HasType f.type v) schema.visible values := by
  have hplain : ∀ c ∈ Inquiry.plainClasses, ¬ w.OfClass a c := by
    intro c hc hother
    have hkeys : ∀ c ∈ Inquiry.plainClasses, ∀ s ∈ Schema.builtins, c.key ≠ s.cls.key := by decide
    exact hkeys c hc schema hschema (hregular.key_injective hother hclass)
  cases hmade with
  | node schema' values cls reflected own distinct content typed =>
      rw [schemaOf?_box hregular hschema hclass] at reflected
      cases reflected
      exact ⟨values, content, typed⟩
  | text s cls | shape s cls | array s cls | map s cls | tensor s cls =>
      exact absurd cls (hplain _ (by decide))

/-- Strings and boxes hold no objects. -/
theorem IsLoose.not_refers (hloose : w.IsLoose a) (hregular : w.types.Regular)
    (hmade : w.IsMade a) : ¬ w.Refers a b := by
  rintro ⟨content, hcontent, hb⟩
  rcases hloose with ⟨s, hs⟩ | ⟨schema, hschema, hclass⟩
  · cases hs.symm.trans hcontent
    cases hb
  · obtain ⟨values, hvalues, htyped⟩ := hmade.box_content hregular hschema hclass
    cases hvalues.symm.trans hcontent
    rw [Schema.references_payload] at hb
    obtain ⟨v, hv, hvb⟩ := List.mem_filterMap.mp hb
    obtain ⟨f, hf, htype⟩ := exists_mem_of_forall₂ htyped hv
    have hplain : ∀ s ∈ Schema.builtins, ∀ f ∈ s.visible,
        f.type = .int .i64 ∨ f.type = .f64 ∨ f.type = .bool := by decide
    rcases hplain schema hschema f hf with h | h | h
    all_goals
      rw [h] at htype
      cases v with
      | object => exact htype
      | _ => cases hvb

/-- A copy of an object of the class of a box has the content of such an object. -/
theorem PayloadCopy.box_inv (hregular : w.types.Regular) {R : ObjId → ObjId → Prop}
    {payload : Payload κ} {schema : Schema} (hcopy : PayloadCopy w R a payload)
    (hmade : w.IsMade a) (hschema : schema ∈ Schema.builtins) (hclass : w.OfClass a schema.cls) :
    ∃ values, payload = schema.payload values := by
  obtain ⟨values, content, -⟩ := hmade.box_content hregular hschema hclass
  obtain ⟨values', rfl, -⟩ := hcopy.node_inv (schemaOf?_box hregular hschema hclass) content
  exact ⟨values', rfl⟩

/-- A copy that travels as a number is of the class of its box and has its content. -/
theorem CopyOf.boxedAs (hregular : w.types.Regular) (hmade : w.IsMade a) (hcopy : CopyOf w h a b)
    {v : Value} (hboxed : (w.withHeap h).boxed? b = some v) :
    ∃ c payload, BoxedAs v c payload ∧ w.OfClass a c ∧
      (w.withHeap h).payload? b = some payload := by
  obtain ⟨payload, hpayload, hpayloads⟩ := hcopy.payload?
  simp only [boxed?, hpayload, bind, Option.bind_some, hcopy.isInstance] at hboxed
  split_ifs at hboxed with hbool hint hfloat
  · have hclass := ofClass_of_isInstance hregular rfl (by decide) hbool
    obtain ⟨values, rfl⟩ := hpayloads.box_inv hregular hmade
      (show Schema.box .boxBool .bool ∈ Schema.builtins by decide) hclass
    obtain ⟨b, hb, rfl⟩ := Option.map_eq_some_iff.mp hboxed
    rcases Schema.payload_cases (κ := κ) (.box .boxBool .bool) values with
      h | ⟨n, -, hcls, -⟩ | ⟨x, -, hcls, -⟩ | ⟨b', -, -, h⟩
    · simp [h, Payload.bool?] at hb
    · exact absurd hcls (by decide)
    · exact absurd hcls (by decide)
    · rw [h] at hb hpayload
      cases hb
      exact ⟨_, _, .bool b, hclass, hpayload⟩
  · have hclass := ofClass_of_isInstance hregular rfl (by decide) hint
    obtain ⟨values, rfl⟩ := hpayloads.box_inv hregular hmade
      (show Schema.box .boxInt (.int .i64) ∈ Schema.builtins by decide) hclass
    obtain ⟨n, hn, rfl⟩ := Option.map_eq_some_iff.mp hboxed
    rcases Schema.payload_cases (κ := κ) (.box .boxInt (.int .i64)) values with
      h | ⟨n', -, -, h⟩ | ⟨x, -, hcls, -⟩ | ⟨b, -, hcls, -⟩
    · simp [h, Payload.int?] at hn
    · rw [h] at hn hpayload
      cases hn
      exact ⟨_, _, .int n, hclass, hpayload⟩
    · exact absurd hcls (by decide)
    · exact absurd hcls (by decide)
  · have hclass := ofClass_of_isInstance hregular rfl (by decide) hfloat
    obtain ⟨values, rfl⟩ := hpayloads.box_inv hregular hmade
      (show Schema.box .boxFloat .f64 ∈ Schema.builtins by decide) hclass
    obtain ⟨x, hx, rfl⟩ := Option.map_eq_some_iff.mp hboxed
    rcases Schema.payload_cases (κ := κ) (.box .boxFloat .f64) values with
      h | ⟨n, -, hcls, -⟩ | ⟨x', -, -, h⟩ | ⟨b, -, hcls, -⟩
    · simp [h, Payload.double?] at hx
    · exact absurd hcls (by decide)
    · rw [h] at hx hpayload
      cases hx
      exact ⟨_, _, .float x, hclass, hpayload⟩
    · exact absurd hcls (by decide)

/-- A copy travels as an object or as the number in it. -/
theorem classify_cases (v : World κ) (id : ObjId) (moved : Bool) :
    (∃ tag, v.classify id moved = .object tag id) ∨
      ∃ x, v.boxed? id = some x ∧ v.classify id moved = x := by
  unfold classify
  split_ifs
  · exact .inl ⟨_, rfl⟩
  · exact .inl ⟨_, rfl⟩
  · exact .inl ⟨_, rfl⟩
  all_goals
    cases hbox : v.boxed? id with
    | none => exact .inl ⟨_, rfl⟩
    | some x => exact .inr ⟨x, rfl, rfl⟩

end World

namespace Run

open World (BoxedAs)

/-- The answer refers to the copy of an object, or to another one if it is a box, and the caller owns
the reference. -/
def Obtains (w : World κ) (h : Heap κ) (held : List ObjId) (a b : ObjId) (run : Run κ Ref) : Prop :=
  ∃ c h', run (w.withHeap h) = (.ok (some c), w.withHeap h') ∧ Grown h h' ∧
    h.cells.size ≤ h'.cells.size ∧ Backed h' w.heap.cells.size (c :: held) ∧ CopyOf w h' a c ∧
    (c = b ∨ w.IsLoose a)

/-- A class with objects has been looked up. -/
theorem classIndex?_of_isInstance {v : World κ} {id : ObjId}
    (hinstance : v.isInstance id c = true) : ∃ first, v.types.classIndex? c = some first := by
  unfold World.isInstance at hinstance
  split at hinstance
  · exact ⟨_, ‹_›⟩
  · cases hinstance

theorem memberOf_of_isInstance {v : World κ} {id : ObjId} (hinstance : v.isInstance id c = true) :
    memberOf c id v = (.ok (some id), v) := by
  obtain ⟨first, hfirst⟩ := classIndex?_of_isInstance hinstance
  refine releasingOnFault_of_ok ?_
  rw [run_bind_of_ok (touch_of_classIndex? hfirst), run_get_bind, if_pos hinstance]
  rfl

/-- An object that is carried is passed on with a reference more. -/
theorem objectOf_object {v : World κ} {tag : ObjectTag} (hinstance : v.isInstance b c = true) :
    objectOf c (.object tag b) v = (.ok (some b), v.withHeap (v.heap.retain b)) := by
  have hretain : retain b v = (.ok (), v.withHeap (v.heap.retain b)) := rfl
  have hstill : (v.withHeap (v.heap.retain b)).isInstance b c = true := by
    rw [World.isInstance_retain, hinstance]
  simp only [objectOf]
  rw [run_bind_of_ok hretain]
  exact memberOf_of_isInstance hstill

/-- What is passed on with a reference more is obtained. -/
theorem obtains_of_retain {run : Run κ Ref} (hcopy : CopyOf w h a b)
    (hbacked : Backed h w.heap.cells.size held) (hb : b ∈ held)
    (hrun : run (w.withHeap h) = (.ok (some b), w.withHeap (h.retain b))) :
    Obtains w h held a b run := by
  obtain ⟨hle, o, ho⟩ := hbacked.alive_of_mem hb
  exact ⟨b, h.retain b, hrun, Heap.grown_retain h b, by simp, hbacked.retain ho hle,
    hcopy.mono (Heap.grown_retain h b), .inl rfl⟩

theorem accepts_of_derivedFrom {boxed : ObjectClass} {v : World κ} {child ancestor : Nat}
    (hchild : v.types.classIndex? boxed = some child)
    (hancestor : v.types.classIndex? c = some ancestor)
    (hdesc : v.types.derivedFrom child ancestor = true) : accepts boxed c v = (.ok true, v) := by
  rw [accepts, run_bind_of_ok (touch_of_classIndex? hchild),
    run_bind_of_ok (touch_of_classIndex? hancestor), run_get_bind, hdesc]
  rfl

/-- A number is put into a new box. -/
theorem objectOf_number {v : World κ} {x : Value} {boxed : ObjectClass} {payload : Payload κ}
    {child first : Nat} (hbox : BoxedAs x boxed payload)
    (hchild : v.types.classIndex? boxed = some child) (hfirst : v.types.classIndex? c = some first)
    (hdesc : v.types.derivedFrom child first = true)
    (hmember : v.types.isInstance child first c = true) :
    objectOf c x v =
      (.ok (some ⟨v.heap.cells.size⟩), v.withHeap (v.heap.alloc child payload).1) := by
  have hcreate : ∀ rest, createAccepted c ((boxed, payload) :: rest) v =
      (.ok (some ⟨v.heap.cells.size⟩), v.withHeap (v.heap.alloc child payload).1) := by
    intro rest
    have hmake : create boxed payload v =
        (.ok ⟨v.heap.cells.size⟩, v.withHeap (v.heap.alloc child payload).1) :=
      create_of_classIndex? (w := v) (h := v.heap) hchild payload
    rw [createAccepted, run_bind_of_ok (accepts_of_derivedFrom hchild hfirst hdesc), if_pos rfl,
      run_bind_of_ok hmake]
    rfl
  have hinstance : (v.withHeap (v.heap.alloc child payload).1).isInstance ⟨v.heap.cells.size⟩ c =
      true := by
    have htype : (v.withHeap (v.heap.alloc child payload).1).typeIndex ⟨v.heap.cells.size⟩ =
        child := by
      simp [World.typeIndex, Heap.get?_alloc]
    rw [World.isInstance, World.withHeap_types, hfirst, htype]
    exact hmember
  have hpassed := memberOf_of_isInstance hinstance
  cases hbox with
  | int n =>
      simp only [objectOf, World.boxings]
      rw [run_bind_of_ok (hcreate _)]
      exact hpassed
  | float y =>
      simp only [objectOf, World.boxings]
      rw [run_bind_of_ok (hcreate _)]
      exact hpassed
  | bool y =>
      simp only [objectOf, World.boxings]
      rw [run_bind_of_ok (hcreate _)]
      exact hpassed

/-- A copy that travels as a number is put into a new box. -/
theorem obtains_box {x : Value} {boxed : ObjectClass} {payload : Payload κ}
    (hcopy : CopyOf w h a b) (hbacked : Backed h w.heap.cells.size held)
    (hbase : w.heap.cells.size ≤ h.cells.size) (hbox : BoxedAs x boxed payload)
    (hclass : w.OfClass a boxed) (hpayload : (w.withHeap h).payload? b = some payload)
    (hinstance : w.isInstance a c = true)
    (hdesc : ∀ first, w.types.classIndex? c = some first →
      w.types.derivedFrom (w.typeIndex a) first = true) :
    Obtains w h held a b (objectOf c x) := by
  obtain ⟨first, hfirst⟩ := classIndex?_of_isInstance hinstance
  obtain ⟨payload', hpayload', hpayloads⟩ := hcopy.payload?
  obtain rfl := Option.some.inj (hpayload.symm.trans hpayload')
  have hgrown := Heap.grown_alloc h (w.typeIndex a) payload
  have hnew : CopyOf w (h.alloc (w.typeIndex a) payload).1 a ⟨h.cells.size⟩ := by
    refine .intro ⟨⟨w.typeIndex a, 1, payload⟩, ?_, rfl, ?_⟩
    · rw [Heap.get?_alloc, if_pos rfl]
    · exact hpayloads.mono fun _ _ _ _ hxy => hxy.mono hgrown
  have hreferences : payload.references = [] := by cases hbox <;> rfl
  have hmember : w.types.isInstance (w.typeIndex a) first c = true := by
    rwa [World.isInstance, hfirst] at hinstance
  have hrun := objectOf_number (v := w.withHeap h) hbox hclass hfirst (hdesc first hfirst) hmember
  refine ⟨⟨h.cells.size⟩, _, hrun, hgrown, by simp, ?_, hnew,
    .inr (World.isLoose_of_box hbox hclass)⟩
  refine Backed.alloc ?_ hbase
  rw [hreferences]
  exact hbacked

/-- An object that is carried passes the check of a container type. -/
theorem decodeContainer_object {v : World κ} {tag : ObjectTag} {rebuild : ObjId → Run κ ObjId}
    (hinstance : v.isInstance b t.cls = true)
    (hpasses : (v.withHeap (v.heap.retain b)).Passes t (some b)) :
    decodeContainer t (.object tag b) rebuild v =
      (.ok (some b), v.withHeap (v.heap.retain b)) := by
  obtain ⟨first, hfirst⟩ := classIndex?_of_isInstance hinstance
  have htouch : releasingOnFault [b] (touch t.cls) (v.withHeap (v.heap.retain b)) =
      (.ok first, v.withHeap (v.heap.retain b)) :=
    releasingOnFault_of_ok (touch_of_classIndex? (w := v.withHeap (v.heap.retain b)) hfirst)
  have hstill : (v.withHeap (v.heap.retain b)).isInstance b t.cls = true := by
    rw [World.isInstance_retain, hinstance]
  have hask : releasingOnFault [b] (askType t (some b)) (v.withHeap (v.heap.retain b)) =
      (.ok (), v.withHeap (v.heap.retain b)) := releasingOnFault_of_ok hpasses.1
  rw [decodeContainer, run_bind_of_ok (objectOf_object (World.isInstance_root v b))]
  simp only
  rw [run_bind_of_ok htouch, run_get_bind, hstill]
  simp only [Bool.not_true, Bool.false_eq_true, if_false]
  rw [run_bind_of_ok hask, run_get_bind, hpasses.2]
  rfl

/-- A copy is taken over by a field of a static type that the object is of. -/
theorem obtains_decodeRef (hregular : w.types.Regular) (hmade : w.IsMade a)
    (hknown : w.ContainersKnown a) (hcopy : CopyOf w h a b)
    (hbacked : Backed h w.heap.cells.size held) (hbase : w.heap.cells.size ≤ h.cells.size)
    (hb : b ∈ held) (htype : w.HasRefType t a) :
    Obtains w h held a b (decodeRef t ((w.withHeap h).classify b false)) := by
  have hchecked := htype.checked
  rcases World.classify_cases (w.withHeap h) b false with ⟨tag, hclassify⟩ | ⟨x, hboxed, hclassify⟩
  · rw [hclassify]
    refine obtains_of_retain hcopy hbacked hb ?_
    have hpasses := (hcopy.mono (Heap.grown_retain h b)).passes hknown hchecked
    have hmember : ∀ {c}, w.isInstance a c = true → (w.withHeap h).isInstance b c = true :=
      fun hinstance => (hcopy.isInstance _).trans hinstance
    cases t with
    | named name cls => exact objectOf_object (hmember (World.isInstance_of_named hchecked))
    | array elem =>
        obtain ⟨elems, hcontent⟩ := World.array_of_checked hchecked
        have hclass := (hknown a .refl).1 elems hcontent
        exact decodeContainer_object (hmember (World.isInstance_of_ofClass hclass)) hpasses
    | map key value =>
        obtain ⟨entries, hcontent⟩ := World.map_of_checked hchecked
        have hclass := (hknown a .refl).2 entries hcontent
        exact decodeContainer_object (hmember (World.isInstance_of_ofClass hclass)) hpasses
  · rw [hclassify]
    obtain ⟨boxed, payload, hbox, hclass, hpayload⟩ := hcopy.boxedAs hregular hmade hboxed
    obtain ⟨payload', hpayload', hpayloads⟩ := hcopy.payload?
    obtain rfl := Option.some.inj (hpayload.symm.trans hpayload')
    cases t with
    | named name cls =>
        exact obtains_box hcopy hbacked hbase hbox hclass hpayload
          (World.isInstance_of_named hchecked) htype.descends
    | array elem =>
        obtain ⟨elems, hcontent⟩ := World.array_of_checked hchecked
        obtain ⟨elems', rfl, -⟩ := hpayloads.array_inv hcontent
        cases hbox
    | map key value =>
        obtain ⟨entries, hcontent⟩ := World.map_of_checked hchecked
        obtain ⟨entries', rfl, -⟩ := hpayloads.map_inv hcontent
        cases hbox

end Run

end ObjectRuntime
