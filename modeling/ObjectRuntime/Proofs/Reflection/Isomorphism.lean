import ObjectRuntime.Proofs.Reflection.Agreement
import ObjectRuntime.Proofs.Reflection.Copies
import ObjectRuntime.Proofs.Reflection.HashAgreement
import ObjectRuntime.Proofs.Reflection.VariableBinding
import Mathlib.Tactic.IntervalCases
set_option autoImplicit false

/-!
# Isomorphic copies

A copy of a graph whose objects are others, but which is the same in all else, has the same hash and
is equal to the graph.  What counts by its identity has to be the same object in the copy: the keys of
maps that are no strings, objects without a structure, and free variables, unless these are mapped.
A variable is free here if it is met at a place of use before any place of definition.
-/

namespace ObjectRuntime

open Relation (ReflTransGen TransGen)

/-- The value with its object renamed. -/
def Value.rename (φ : ObjId → ObjId) : Value → Value
  | .object tag id => .object tag (φ id)
  | v => v

/-- The content with the objects renamed that it holds. -/
def Payload.rename {κ : Type} (φ : ObjId → ObjId) : Payload κ → Payload κ
  | .array elems => .array (elems.map (Option.map φ))
  | .map entries => .map (entries.map fun e => (e.1.map φ, e.2.map φ))
  | .node values => .node (values.map (Value.rename φ))
  | content => content

namespace World

variable {κ : Type} {w : World κ} {g : Ref} {φ : ObjId → ObjId} {a b x : ObjId}

/-- A graph without cycles, whose maps have distinct keys, whose strings have no attributes and whose
tensors can be read. -/
structure Readable (w : World κ) (g : Ref) : Prop where
  acyclic : w.Acyclic g
  distinct : ∀ {a entries}, w.Met g a → w.payload? a = some (.map entries) →
    entries.Pairwise fun e e' => w.sameKey e.1 e'.1 = false
  strings : ∀ {a s}, w.Met g a → w.payload? a = some (.text s) → w.schemaOf? a = none
  tensors : ∀ {a t}, w.Met g a → w.tensor? a = some t → ∃ data, w.tensorBytes a t = .ok data

/-- Renaming leads from the objects of a graph to those of an isomorphic copy: types, contents and the
places of objects are kept, and what counts by its identity is the same. -/
structure Isomorphism (w : World κ) (g : Ref) (φ : ObjId → ObjId) : Prop where
  injective : ∀ {a b}, w.Met g a → w.Met g b → φ a = φ b → a = b
  typeIndex : ∀ {a}, w.Met g a → w.typeIndex (φ a) = w.typeIndex a
  content : ∀ {a}, w.Met g a → w.tensor? a = none →
    w.payload? (φ a) = (w.payload? a).map (Payload.rename φ)
  tensor : ∀ {a}, w.Met g a → w.tensorContent? (φ a) = w.tensorContent? a
  keys : ∀ {a entries k v}, w.Met g a → w.payload? a = some (.map entries) →
    (some k, v) ∈ entries → w.text? k = none → φ k = k
  unstructured : ∀ {a}, w.Met g a → w.schemaOf? a = none →
    (∀ content, w.payload? a = some content → plainClass? content = none) → φ a = a

/-- An object and its image. -/
def ImageOf (w : World κ) (g : Ref) (φ : ObjId → ObjId) (a b : ObjId) : Prop := w.Met g a ∧ b = φ a

/-! ## Values and contents -/

@[simp] theorem object?_rename (v : Value) : (v.rename φ).object? = v.object?.map φ := by
  cases v <;> rfl

theorem SameValue.refl (v : Value) : SameValue v v := by
  cases v with
  | float x => exact Double.SameNumber.refl x
  | _ => rfl

theorem rename_of_plain {v : Value} (h : v.object? = none) : v.rename φ = v := by
  cases v with
  | object tag id => cases h
  | _ => rfl

theorem values_rename (schema : Schema) (content : Payload κ) :
    schema.values (content.rename φ) = (schema.values content).map (Value.rename φ) := by
  cases content with
  | node values => rfl
  | boxInt n | boxFloat x | boxBool b =>
      simp only [Payload.rename, Schema.values]
      split_ifs <;> rfl
  | _ =>
      simp [Payload.rename, Schema.values, Payload.int?, Payload.double?, Payload.bool?]

/-- A reference is related to its image. -/
theorem refRel_map {r : Ref} (hr : ∀ id, r = some id → w.Met g id) :
    RefRel (w.ImageOf g φ) r (r.map φ) := by
  cases r with
  | none => trivial
  | some id => exact ⟨hr id rfl, rfl⟩

/-- A value is shown as its image is, but for the object. -/
theorem valueMatch_rename {v : Value} (hv : ∀ id, v.object? = some id → w.Met g id) :
    ValueMatch (w.ImageOf g φ) (fun v v' => v = v') (w.showField v) (w.showField (v.rename φ)) := by
  refine ⟨?_, fun hplain => ?_⟩
  · rw [object?_showField, object?_showField, object?_rename]
    exact refRel_map hv
  · rw [rename_of_plain (by simpa using hplain)]

/-- Fields are shown as their images are, but for the objects. -/
theorem attrMatch_rename (fields : List Field) (values : List Value)
    (hmet : ∀ attr ∈ List.zipWith
      (fun (f : Field) v => (⟨f.key, w.showField v, f.role = .definition⟩ : Attr)) fields values,
      ∀ id, attr.value.object? = some id → w.Met g id) :
    List.Forall₂ (AttrMatch (w.ImageOf g φ) fun v v' => v = v')
      (List.zipWith (fun (f : Field) v => ⟨f.key, w.showField v, f.role = .definition⟩) fields values)
      (List.zipWith (fun (f : Field) v => ⟨f.key, w.showField v, f.role = .definition⟩) fields
        (values.map (Value.rename φ))) := by
  induction fields generalizing values with
  | nil => exact .nil
  | cons f fields ih =>
      cases values with
      | nil => exact .nil
      | cons v values =>
          refine .cons ⟨rfl, rfl, valueMatch_rename fun id hid => ?_⟩
            (ih values fun attr hattr => hmet attr (List.mem_cons_of_mem _ hattr))
          exact hmet _ List.mem_cons_self id (by simpa using hid)

/-- A tensor shows no attributes. -/
theorem shown_of_tensor {t : Tensor} (h : w.tensor? a = some t) : w.shown a = [] :=
  shown_of_values_nil (payload?_of_tensor? h) (values_tensor · t)

namespace Isomorphism

variable (hiso : w.Isomorphism g φ)
include hiso

theorem schemaOf? (ha : w.Met g a) : w.schemaOf? (φ a) = w.schemaOf? a := by
  rw [World.schemaOf?, World.schemaOf?, hiso.typeIndex ha]

/-- The image of a tensor is a tensor. -/
theorem tensor? (ha : w.Met g a) {t : Tensor} (ht : w.tensor? a = some t) :
    ∃ t', w.tensor? (φ a) = some t' ∧ t.dtype = t'.dtype ∧ t.shape = t'.shape ∧
      w.tensorBytes a t = w.tensorBytes (φ a) t' := by
  have hcontent := hiso.tensor ha
  simp only [tensorContent?, ht, Option.map_some] at hcontent
  obtain ⟨t', ht', heq⟩ := Option.map_eq_some_iff.mp hcontent
  obtain ⟨hdtype, heq⟩ := Prod.mk.inj heq
  obtain ⟨hshape, hbytes⟩ := Prod.mk.inj heq
  exact ⟨t', ht', hdtype.symm, hshape.symm, hbytes.symm⟩

/-- The image of a string is a string of the same text. -/
theorem text? (ha : w.Met g a) : w.text? (φ a) = w.text? a := by
  cases ht : w.tensor? a with
  | some t =>
      obtain ⟨t', ht', -⟩ := hiso.tensor? ha ht
      simp [World.text?, payload?_of_tensor? ht, payload?_of_tensor? ht']
  | none =>
      have hcontent := hiso.content ha ht
      cases hpayload : w.payload? a with
      | none => simp [World.text?, hcontent, hpayload]
      | some content => cases content <;> simp [World.text?, hcontent, hpayload, Payload.rename]

theorem keyText? {k : Ref} (hk : ∀ id, k = some id → w.Met g id) :
    w.keyText? (k.map φ) = w.keyText? k := by
  cases k with
  | none => rfl
  | some id => exact hiso.text? (hk id rfl)

/-- Keys are told apart in the image as in the graph. -/
theorem sameKey {k k' : Ref} (hk : ∀ id, k = some id → w.Met g id)
    (hk' : ∀ id, k' = some id → w.Met g id) :
    w.sameKey (k.map φ) (k'.map φ) = w.sameKey k k' := by
  have hequal : (k.map φ == k'.map φ) = (k == k') := by
    rw [Bool.eq_iff_iff, beq_iff_eq, beq_iff_eq]
    refine ⟨fun heq => ?_, congrArg _⟩
    cases k with
    | none => cases k' <;> simp_all
    | some a =>
        cases k' with
        | none => cases heq
        | some b => rw [hiso.injective (hk a rfl) (hk' b rfl) (Option.some.inj heq)]
  have htext : (k.map φ).bind w.text? = k.bind w.text? := hiso.keyText? hk
  have htext' : (k'.map φ).bind w.text? = k'.bind w.text? := hiso.keyText? hk'
  rw [World.sameKey, World.sameKey, htext, htext', hequal]

/-- An object of a reflected class shows what its image does. -/
theorem shown (ha : w.Met g a) {schema : Schema} (hschema : w.schemaOf? a = some schema) :
    List.Forall₂ (AttrMatch (w.ImageOf g φ) fun v v' => v = v') (w.shown a) (w.shown (φ a)) := by
  cases ht : w.tensor? a with
  | some t =>
      obtain ⟨t', ht', -⟩ := hiso.tensor? ha ht
      rw [shown_of_tensor ht, shown_of_tensor ht']
      exact .nil
  | none =>
      have hvalues : ((w.payload? (φ a)).map schema.values).getD [] =
          (((w.payload? a).map schema.values).getD []).map (Value.rename φ) := by
        rw [hiso.content ha ht]
        cases w.payload? a with
        | none => rfl
        | some content => exact values_rename schema content
      have hmet : ∀ attr ∈ w.shown a, ∀ id, attr.value.object? = some id → w.Met g id :=
        fun attr hattr id hid => ha.step (meets_of_attr hattr hid)
      rw [World.shown, attrs_eq hschema] at hmet ⊢
      rw [World.shown, attrs_eq ((hiso.schemaOf? ha).trans hschema), hvalues]
      exact attrMatch_rename _ _ hmet

/-- The content of an object that is not reflected matches that of its image. -/
theorem contentMatch (hgraph : w.Readable g) (ha : w.Met g a) (hschema : w.schemaOf? a = none) :
    ContentMatch w (w.ImageOf g φ) a (φ a) := by
  cases ht : w.tensor? a with
  | some t =>
      obtain ⟨t', ht', hdtype, hshape, hbytes⟩ := hiso.tensor? ha ht
      obtain ⟨data, hdata⟩ := hgraph.tensors ha ht
      exact .tensor t t' data (payload?_of_tensor? ht) (payload?_of_tensor? ht') hdtype hshape hdata
        (hbytes ▸ hdata)
  | none =>
      have hcontent := hiso.content ha ht
      cases hpayload : w.payload? a with
      | none => exact .other (hiso.unstructured ha hschema (by simp [hpayload])).symm (by simp [hpayload])
      | some content =>
          rw [hpayload] at hcontent
          have hother : plainClass? content = none → ContentMatch w (w.ImageOf g φ) a (φ a) := by
            intro hplain
            have hnone : ∀ c, w.payload? a = some c → plainClass? c = none := by
              intro c hc
              rwa [← Option.some.inj (hpayload.symm.trans hc)]
            exact .other (hiso.unstructured ha hschema hnone).symm hnone
          cases content with
          | text s => exact .text s hpayload hcontent
          | shape dims => exact .shape dims hpayload hcontent
          | array elems =>
              refine .array elems _ hpayload hcontent ?_
              rw [List.forall₂_map_right_iff, List.forall₂_same]
              exact fun r hr => refRel_map fun id hid =>
                ha.step (meets_of_element hschema hpayload (hid ▸ hr))
          | map entries =>
              have hmet : ∀ e ∈ entries, ∀ id, e.1 = some id ∨ e.2 = some id → w.Met g id :=
                fun e he id hid => ha.step (meets_of_entry hschema hpayload he hid)
              refine .map entries _ hpayload hcontent ?_ ?_
              · refine List.pairwise_map.mpr ((hgraph.distinct ha hpayload).imp_of_mem ?_)
                intro e e' he he' hne
                rwa [hiso.sameKey (fun id hid => hmet e he id (.inl hid))
                  (fun id hid => hmet e' he' id (.inl hid))]
              · rw [List.forall₂_map_right_iff, List.forall₂_same]
                rintro ⟨k, v⟩ he
                have hk : ∀ id, k = some id → w.Met g id := fun id hid => hmet _ he id (.inl hid)
                refine ⟨⟨refRel_map hk, ?_⟩, refRel_map fun id hid => hmet _ he id (.inr hid)⟩
                cases hid : k with
                | none => exact .inl rfl
                | some id =>
                    subst hid
                    cases htext : w.text? id with
                    | none => exact .inl (congrArg some (hiso.keys ha hpayload he htext).symm)
                    | some s => exact .inr ⟨s, htext, (hiso.keyText? hk).trans htext⟩
          | tensor t => simp [World.tensor?, hpayload] at ht
          | _ => exact hother rfl

/-- A graph matches its image. -/
theorem matching (hgraph : w.Readable g) : Matching w (w.ImageOf g φ) fun v v' => v = v' where
  typeIndex := by
    rintro a _ ⟨ha, rfl⟩
    exact (hiso.typeIndex ha).symm
  attrs := by
    rintro a _ ⟨ha, rfl⟩ hschema
    obtain ⟨schema, hschema⟩ := Option.ne_none_iff_exists'.mp hschema
    exact hiso.shown ha hschema
  content := by
    rintro a _ ⟨ha, rfl⟩ hschema
    exact hiso.contentMatch hgraph ha hschema
  oneToOne := by
    rintro a _ a' _ ⟨ha, rfl⟩ ⟨ha', rfl⟩ - -
    exact ⟨congrArg φ, hiso.injective ha ha'⟩

end Isomorphism

/-- Variables that are used first are the same in the copy. -/
theorem ordered_of_firstUsed (hfirst : ∀ x, w.FirstUsed g x → φ x = x) :
    Ordered (w.ImageOf g φ) (w.occurrences g) := by
  intro before x after hmet hnew
  refine ⟨?_, (hfirst x ⟨before, after, hmet, hnew⟩).symm⟩
  have hx : (x, false) ∈ w.occurrences g := by simp [hmet]
  cases g with
  | none => cases hx
  | some top => exact ⟨top, rfl, (reaches_of_mem_occurrencesWithin (by simpa [occurrences] using hx)).1⟩

/-- Isomorphic graphs in which no variable is met from another have the same hash, and are equal if
their floating point numbers are finite.  Unless free variables are mapped, those that are used before
they are defined have to be the same in both. -/
theorem structure_of_isomorphism {mapFree : Bool} (hgraph : w.Readable g) (hflat : w.Flat g)
    (hiso : w.Isomorphism g φ) (hfirst : mapFree = false → ∀ x, w.FirstUsed g x → φ x = x) :
    (∃ h, structuralHash w g mapFree = .ok h ∧ structuralHash w (g.map φ) mapFree = .ok h) ∧
      (w.FiniteFloats g → structuralEqual w g (g.map φ) mapFree = .ok true) := by
  have hm := hiso.matching hgraph
  have hordered : mapFree = false → Ordered (w.ImageOf g φ) (w.occurrences g) :=
    fun hfree => ordered_of_firstUsed (hfirst hfree)
  have hroot : RefRel (w.ImageOf g φ) g (g.map φ) := refRel_map fun id hid => hid ▸ .root id
  refine ⟨structuralHash_of_matching hm (fun h => h ▸ rfl) hordered hgraph.acyclic hroot,
    fun hfinite => ?_⟩
  have hequal : Matching w (w.ImageOf g φ) fun v v' => Equality.plainEqual v v' = true := by
    refine hm.imp_plain ?_
    rintro a b ⟨ha, -⟩ attr hattr _ hnone rfl
    exact Equality.plainEqual_of_sameValue (SameValue.refl _) hnone (hfinite a ha attr hattr)
  refine structuralEqual_of_matching hequal id (fun hfree => ⟨⟨?_, ?_⟩, hordered hfree⟩)
    hgraph.acyclic hroot
  · rintro a b x ⟨ha, -⟩ hvar hx
    exact hflat a x ha hvar hx
  · rintro a b s ⟨ha, -⟩ hcontent
    exact hgraph.strings ha hcontent

end World

/-! ## A function with another name for its parameter -/

/-- `f(x) = {"k": x}` and `g(y) = {"k": y}`, which share nothing. -/
def renamedFunction : World Unit := functionsOver
  [⟨3, 1, .text "k"⟩, ⟨3, 1, .text "k"⟩, ⟨4, 1, .array [some ⟨0⟩]⟩, ⟨4, 1, .array [some ⟨1⟩]⟩,
    ⟨5, 1, .map [(some ⟨2⟩, some ⟨0⟩)]⟩, ⟨5, 1, .map [(some ⟨3⟩, some ⟨1⟩)]⟩,
    ⟨9, 1, .node [.object .object ⟨4⟩, .object .object ⟨6⟩]⟩,
    ⟨9, 1, .node [.object .object ⟨5⟩, .object .object ⟨7⟩]⟩]

/-- Exchanges the objects of one function with those of the other. -/
def exchange (id : ObjId) : ObjId :=
  if id.index < 10 then ⟨if id.index % 2 = 0 then id.index + 1 else id.index - 1⟩ else id

namespace renamedFunction

open World

theorem payload?_of_large {id : ObjId} (h : ¬ id.index < 10) :
    renamedFunction.payload? id = none := by
  simp [payload?, Heap.get?, renamedFunction, functionsOver, Nat.le_of_not_lt h]

/-- One of the objects, or none, which is the same in the copy. -/
theorem cases_small {P : ObjId → Prop} (small : ∀ i, i < 10 → P ⟨i⟩)
    (large : ∀ id, exchange id = id → renamedFunction.payload? id = none → P id) (id : ObjId) :
    P id := by
  by_cases h : id.index < 10
  · exact small id.index h
  · exact large id (if_neg h) (payload?_of_large h)

theorem tensor?_eq_none (id : ObjId) : renamedFunction.tensor? id = none := by
  induction id using cases_small with
  | small i hi => interval_cases i <;> rfl
  | large id _ hnone => simp [tensor?, hnone]

theorem isomorphism : renamedFunction.Isomorphism (some ⟨8⟩) exchange where
  injective {a b} _ _ heq := by
    have hself : ∀ id, exchange (exchange id) = id :=
      cases_small (by decide) fun id hid _ => by rw [hid, hid]
    rw [← hself a, heq, hself]
  typeIndex {a} _ := by
    induction a using cases_small with
    | small i hi => interval_cases i <;> rfl
    | large id hid _ => rw [hid]
  content {a} _ _ := by
    induction a using cases_small with
    | small i hi => interval_cases i <;> rfl
    | large id hid hnone => rw [hid, hnone]; rfl
  tensor _ := by simp only [tensorContent?, tensor?_eq_none, Option.map_none]
  keys {a entries k v} _ hcontent hentry htext := by
    induction a using cases_small with
    | small i hi =>
        interval_cases i <;> cases hcontent
        all_goals
          cases List.mem_singleton.mp hentry
          cases htext
    | large id _ hnone => simp [hnone] at hcontent
  unstructured {a} _ hschema hplain := by
    induction a using cases_small with
    | small i hi =>
        interval_cases i
        all_goals
          first
          | exact absurd (hplain _ rfl) (by decide)
          | exact absurd hschema (by decide)
    | large id hid _ => exact hid

theorem readable : renamedFunction.Readable (some ⟨8⟩) where
  acyclic a _ := acyclicAt_of_isOrdered rfl a
  distinct {a entries} _ hcontent := by
    induction a using cases_small with
    | small i hi =>
        interval_cases i <;> cases hcontent
        all_goals exact List.pairwise_singleton _ _
    | large id _ hnone => simp [hnone] at hcontent
  strings {a s} _ hcontent := by
    induction a using cases_small with
    | small i hi =>
        interval_cases i <;> cases hcontent
        all_goals rfl
    | large id _ hnone => simp [hnone] at hcontent
  tensors _ ht := by simp [tensor?_eq_none] at ht

theorem flat : renamedFunction.Flat (some ⟨8⟩) := by
  intro x y _ hvar hxy
  obtain ⟨z, hxz, -⟩ := TransGen.head'_iff.mp hxy
  obtain ⟨content, hcontent, hz⟩ := refers_of_meets hxz
  induction x using cases_small with
  | small i hi =>
      interval_cases i <;> cases hcontent
      all_goals
        first
        | exact absurd hvar (by decide)
        | exact absurd hz List.not_mem_nil
  | large id _ hnone => simp [hnone] at hcontent

theorem finiteFloats : renamedFunction.FiniteFloats (some ⟨8⟩) := by
  rintro a - attr hattr x hx
  induction a using cases_small with
  | small i hi =>
      have hvalues : ∀ i, i < 10 → ∀ attr ∈ renamedFunction.shown ⟨i⟩,
          attr.value.typeCode ≠ TypeCode.float := by
        decide
      exact absurd (by rw [hx]; rfl) (hvalues i hi attr hattr)
  | large id _ hnone =>
      cases hschema : renamedFunction.schemaOf? id with
      | none => simp [shown, attrs, hschema, Except.toOption] at hattr
      | some schema => simp [shown, attrs_eq hschema, hnone, Except.toOption] at hattr

/-- The parameter is defined before it is used. -/
theorem not_firstUsed (x : ObjId) : ¬ renamedFunction.FirstUsed (some ⟨8⟩) x := by
  rintro ⟨before, after, hmet, hnew⟩
  have hoccurrences : renamedFunction.occurrences (some ⟨8⟩) = [(⟨0⟩, true), (⟨0⟩, false)] := rfl
  rw [hoccurrences] at hmet
  cases before with
  | nil => cases hmet
  | cons p before =>
      obtain ⟨rfl, hmet⟩ := List.cons.inj hmet
      cases before with
      | nil =>
          cases hmet
          exact hnew List.mem_cons_self
      | cons p before => simp at hmet

end renamedFunction

/-- The two functions have one hash and are equal. -/
theorem renamedFunction_structure :
    (∃ h, structuralHash renamedFunction (some ⟨8⟩) false = .ok h ∧
      structuralHash renamedFunction (some ⟨9⟩) false = .ok h) ∧
    structuralEqual renamedFunction (some ⟨8⟩) (some ⟨9⟩) false = .ok true := by
  obtain ⟨hhash, hequal⟩ := World.structure_of_isomorphism renamedFunction.readable
    renamedFunction.flat renamedFunction.isomorphism
    fun _ x hx => absurd hx (renamedFunction.not_firstUsed x)
  exact ⟨hhash, hequal renamedFunction.finiteFloats⟩

end ObjectRuntime
