import ObjectRuntime.Proofs.Reflection.Content
import ObjectRuntime.Proofs.Reflection.Correspondence
import ObjectRuntime.Proofs.Reflection.Visiting
set_option autoImplicit false

/-!
# Matching relations

A relation between objects is `Matching` if related objects have the same type and content, related
objects at the same places, and one counterpart each, as far as their identity counts.  Then a
comparison of related objects finds no difference, and binds only objects that are related.

Where free variables may not be mapped this needs every variable that is used before it is defined to
be related to itself (`Settled.ordered`).  `Passes` says of a part of a comparison that it finds no
difference, after the variables `done` and before those after `met`; parts are put together with the
lists of variables that they meet.
-/

namespace ObjectRuntime

open Relation (ReflTransGen TransGen)

namespace World

variable {κ : Type}

/-- The object can be bound to a counterpart: it is a variable or a graph node. -/
def isBindable (w : World κ) (id : ObjId) : Bool :=
  (w.schemaOf? id).any fun schema => schema.kind ≠ .tree

/-- Objects of one type have one schema. -/
theorem schemaOf?_congr {w : World κ} {a b : ObjId} (h : w.typeIndex a = w.typeIndex b) :
    w.schemaOf? a = w.schemaOf? b := by
  rw [schemaOf?, schemaOf?, h]

/-- Objects of one type can both be bound or neither. -/
theorem isBindable_congr {w : World κ} {a b : ObjId} (h : w.typeIndex a = w.typeIndex b) :
    w.isBindable a = w.isBindable b := by
  rw [isBindable, isBindable, schemaOf?_congr h]

section

variable (w : World κ) (R : ObjId → ObjId → Prop) (plain : Value → Value → Prop)

/-- Values that carry related objects, or that carry none and agree. -/
def ValueMatch (v v' : Value) : Prop :=
  RefRel R v.object? v'.object? ∧ (v.object? = none → plain v v')

/-- Attributes of one name, at places of one kind, with matching values. -/
structure AttrMatch (attr attr' : Attr) : Prop where
  key : attr.key = attr'.key
  place : attr.isDefinition = attr'.isDefinition
  value : ValueMatch R plain attr.value attr'.value

/-- Related keys, strings of one text or the same. -/
def KeyMatch (k k' : Ref) : Prop :=
  RefRel R k k' ∧ (k = k' ∨ ∃ s, w.keyText? k = some s ∧ w.keyText? k' = some s)

/-- Entries with matching keys and related values. -/
def EntryMatch (e e' : Ref × Ref) : Prop := KeyMatch w R e.1 e'.1 ∧ RefRel R e.2 e'.2

/-- Objects of a class that is not reflected have the same content and hold related objects.  Objects
without a content that can be compared are the same. -/
inductive ContentMatch (a b : ObjId) : Prop
  | text (s : String) (left : w.payload? a = some (.text s)) (right : w.payload? b = some (.text s))
  | shape (dims : List Int) (left : w.payload? a = some (.shape dims))
      (right : w.payload? b = some (.shape dims))
  | array (elems elems' : List Ref) (left : w.payload? a = some (.array elems))
      (right : w.payload? b = some (.array elems')) (related : List.Forall₂ (RefRel R) elems elems')
  | map (entries entries' : List (Ref × Ref)) (left : w.payload? a = some (.map entries))
      (right : w.payload? b = some (.map entries'))
      (distinct : entries'.Pairwise fun e e' => w.sameKey e.1 e'.1 = false)
      (related : List.Forall₂ (EntryMatch w R) entries entries')
  | tensor (t t' : Tensor) (data : Bytes) (left : w.payload? a = some (.tensor t))
      (right : w.payload? b = some (.tensor t')) (dtype : t.dtype = t'.dtype)
      (shape : t.shape = t'.shape) (bytes : w.tensorBytes a t = .ok data)
      (bytes' : w.tensorBytes b t' = .ok data)
  | other (same : a = b) (content : ∀ c, w.payload? a = some c → plainClass? c = none)

/-- Related objects have the same type, matching attributes or contents, and one counterpart each if
they can be bound. -/
structure Matching : Prop where
  typeIndex : ∀ {a b}, R a b → w.typeIndex a = w.typeIndex b
  attrs : ∀ {a b}, R a b → w.schemaOf? a ≠ none →
    List.Forall₂ (AttrMatch R plain) (w.shown a) (w.shown b)
  content : ∀ {a b}, R a b → w.schemaOf? a = none → ContentMatch w R a b
  oneToOne : ∀ {a b a' b'}, R a b → R a' b' → w.isBindable a = true → w.isBindable a' = true →
    (a = a' ↔ b = b')

/-- What is needed where free variables are not mapped: variables hold no variables and strings no
attributes. -/
structure Grounded : Prop where
  flat : ∀ {a b x}, R a b → w.isVariable a = true → TransGen w.Meets a x → w.isVariable x = false
  strings : ∀ {a b s}, R a b → w.payload? a = some (.text s) → w.schemaOf? a = none

end

/-- Every variable that is used before it is defined is related to itself. -/
def Ordered (R : ObjId → ObjId → Prop) (met : List (ObjId × Bool)) : Prop :=
  ∀ before x after, met = before ++ (x, false) :: after → (x, true) ∉ before → R x x

theorem Ordered.left {R : ObjId → ObjId → Prop} {done met : List (ObjId × Bool)}
    (h : Ordered R (done ++ met)) : Ordered R done := by
  rintro before x after rfl hnew
  exact h before x (after ++ met) (by simp) hnew

variable {w : World κ} {R : ObjId → ObjId → Prop} {plain : Value → Value → Prop} {a b x : ObjId}

/-- What is the same on both sides holds only what is the same. -/
theorem Matching.same (hm : Matching w R plain) (ha : R a a) (hx : w.Meets a x) : R x x := by
  rcases meets_cases hx with ⟨hschema, attr, hattr, hx⟩ |
    ⟨hschema, ⟨elems, hcontent, hx⟩ | ⟨entries, hcontent, entry, hentry, hx⟩⟩
  · have hrel := (List.forall₂_same.mp (hm.attrs ha hschema) attr hattr).value.1
    rwa [hx] at hrel
  · cases hm.content ha hschema with
    | array elems₁ elems₂ left right related =>
        cases left.symm.trans hcontent
        cases right.symm.trans hcontent
        exact List.forall₂_same.mp related _ hx
    | other _ content => cases content _ hcontent
    | text _ left | shape _ left | map _ _ left | tensor _ _ _ left =>
        cases left.symm.trans hcontent
  · cases hm.content ha hschema with
    | map entries₁ entries₂ left right _ related =>
        cases left.symm.trans hcontent
        cases right.symm.trans hcontent
        obtain ⟨⟨hkey, -⟩, hvalue⟩ := List.forall₂_same.mp related _ hentry
        rcases hx with hx | hx
        · rwa [hx] at hkey
        · rwa [hx] at hvalue
    | other _ content => cases content _ hcontent
    | text _ left | shape _ left | array _ _ left | tensor _ _ _ left =>
        cases left.symm.trans hcontent

theorem Matching.same_of_reaches (hm : Matching w R plain) (ha : R a a)
    (hx : ReflTransGen w.Meets a x) : R x x := by
  induction hx with
  | refl => exact ha
  | tail _ hstep ih => exact hm.same ih hstep

/-- What is asked of plain values may be exchanged, attribute by attribute. -/
theorem Matching.imp_plain {plain' : Value → Value → Prop} (hm : Matching w R plain)
    (himp : ∀ {a b}, R a b → ∀ attr ∈ w.shown a, ∀ v', attr.value.object? = none →
      plain attr.value v' → plain' attr.value v') : Matching w R plain' where
  typeIndex := hm.typeIndex
  attrs hab hschema := by
    refine forall₂_imp_mem (hm.attrs hab hschema) fun attr attr' hattr _ hmatch => ?_
    exact ⟨hmatch.key, hmatch.place, hmatch.value.1,
      fun hnone => himp hab attr hattr _ hnone (hmatch.value.2 hnone)⟩
  content := hm.content
  oneToOne := hm.oneToOne

/-- A relation matches on the objects of a graph. -/
theorem Matching.restrict (hm : Matching w R plain) (g : Ref) :
    Matching w (fun a b => R a b ∧ w.Met g a) plain where
  typeIndex hab := hm.typeIndex hab.1
  attrs := by
    rintro a b ⟨hab, hmet⟩ hschema
    refine forall₂_imp_mem (hm.attrs hab hschema) fun attr attr' hattr _ hmatch => ?_
    refine ⟨hmatch.key, hmatch.place, hmatch.value.1.mono fun x y hx _ hxy => ⟨hxy, ?_⟩,
      hmatch.value.2⟩
    exact hmet.step (meets_of_attr hattr hx)
  content := by
    rintro a b ⟨hab, hmet⟩ hschema
    cases hm.content hab hschema with
    | text s left right => exact .text s left right
    | shape dims left right => exact .shape dims left right
    | array elems elems' left right related =>
        refine .array elems elems' left right (forall₂_imp_mem related fun r r' hr _ hrel => ?_)
        exact hrel.mono fun x y hx _ hxy =>
          ⟨hxy, hmet.step (meets_of_element hschema left (hx ▸ hr))⟩
    | map entries entries' left right distinct related =>
        refine .map entries entries' left right distinct
          (forall₂_imp_mem related fun e e' he _ hrel => ?_)
        have hmeets : ∀ x, e.1 = some x ∨ e.2 = some x → w.Met g x :=
          fun x hx => hmet.step (meets_of_entry hschema left he hx)
        exact ⟨⟨hrel.1.1.mono fun x y hx _ hxy => ⟨hxy, hmeets x (.inl hx)⟩, hrel.1.2⟩,
          hrel.2.mono fun x y hx _ hxy => ⟨hxy, hmeets x (.inr hx)⟩⟩
    | tensor t t' data left right dtype shape bytes bytes' =>
        exact .tensor t t' data left right dtype shape bytes bytes'
    | other same content => exact .other same content
  oneToOne hab hab' := hm.oneToOne hab.1 hab'.1

/-- Related objects have the same schema. -/
theorem Matching.schemaOf? (hm : Matching w R plain) (hab : R a b) :
    w.schemaOf? a = w.schemaOf? b :=
  schemaOf?_congr (hm.typeIndex hab)

/-! ## Keys -/

theorem sameKey_refl (w : World κ) (k : Ref) : w.sameKey k k = true := by
  unfold sameKey
  split <;> simp_all

/-- The same key is the same object or a string of the same text. -/
theorem sameKey_iff {k k' : Ref} : w.sameKey k k' = true ↔
    k = k' ∨ ∃ s, w.keyText? k = some s ∧ w.keyText? k' = some s := by
  unfold sameKey keyText?
  cases hk : k.bind w.text? with
  | none => simp
  | some s =>
      cases hk' : k'.bind w.text? with
      | none => simp
      | some t =>
          simp only [beq_iff_eq, Option.some.injEq]
          constructor
          · rintro rfl
            exact .inr ⟨s, rfl, rfl⟩
          · rintro (rfl | ⟨_, rfl, rfl⟩)
            · exact Option.some.inj (hk.symm.trans hk')
            · rfl

theorem sameKey_comm (w : World κ) (k k' : Ref) : w.sameKey k k' = w.sameKey k' k := by
  unfold sameKey
  cases k.bind w.text? <;> cases k'.bind w.text? <;> exact BEq.comm

/-- Two keys that are the same as a third one are the same. -/
theorem sameKey_trans {k k' key : Ref} (h : w.sameKey k key = true) (h' : w.sameKey k' key = true) :
    w.sameKey k k' = true := by
  rw [sameKey_iff] at h h' ⊢
  rcases h with rfl | ⟨s, hk, hkey⟩
  · exact h'.imp Eq.symm fun ⟨s, hk', hkey⟩ => ⟨s, hkey, hk'⟩
  · rcases h' with rfl | ⟨t, hk', hkey'⟩
    · exact .inr ⟨s, hk, hkey⟩
    · cases hkey.symm.trans hkey'
      exact .inr ⟨s, hk, hk'⟩

/-- The same keys are told apart from others alike. -/
theorem sameKey_congr {k k' : Ref} (h : w.sameKey k k' = true) (x : Ref) :
    w.sameKey x k = w.sameKey x k' := by
  rw [Bool.eq_iff_iff]
  exact ⟨fun hx => sameKey_trans hx (sameKey_comm w k k' ▸ h), fun hx => sameKey_trans hx h⟩

/-- Of distinct keys, each is found where it stands. -/
theorem find?_entry {entries : List (Ref × Ref)} {e : Ref × Ref}
    (hdistinct : entries.Pairwise fun e e' => w.sameKey e.1 e'.1 = false) (he : e ∈ entries) :
    entries.find? (fun e' => w.sameKey e'.1 e.1) = some e := by
  induction entries with
  | nil => cases he
  | cons e' entries ih =>
      obtain ⟨hhead, htail⟩ := List.pairwise_cons.mp hdistinct
      rcases List.mem_cons.mp he with rfl | he
      · simp [sameKey_refl]
      · rw [List.find?_cons_of_neg (by simp [hhead e he]), ih htail he]

end World

end ObjectRuntime
