import ObjectRuntime.Proofs.Container.PlainValue
import ObjectRuntime.Proofs.Container.Renewal
import ObjectRuntime.Proofs.Reflection.Decoding
set_option autoImplicit false

/-!
# The values that references show

A reference shows a value without sharing: that of the object that it refers to, with those that the
references in the object show.  `World.Presents` says so for objects with stamps, which tell one object
from another as long as no two of them have the same.  Nothing changes for a reference unless an
object changes that can be reached from it.
-/

namespace ObjectRuntime

open Handles
open World (Balanced Since ObjectAt)

variable {κ : Type} {P : κ → Prop} {w w' : World κ} {others held : List ObjId}
  {id x : ObjId} {c : ObjectClass} {payload : Payload κ}

/-- What the reference shows is the value. -/
inductive World.Presents (w : World κ) (stamps : ObjId → Nat) : Ref → PlainValue → Prop
  | null : World.Presents w stamps none .null
  | text {id : ObjId} {s : String} (object : w.ObjectAt id .string (.text s)) :
      World.Presents w stamps (some id) (.text (stamps id) s)
  | box {id : ObjId} {c : BoxContent} (object : w.ObjectAt id c.cls c.payload) :
      World.Presents w stamps (some id) (.box (stamps id) c)
  | array {id : ObjId} {elems : List Ref} {vs : List PlainValue}
      (object : w.ObjectAt id .array (.array elems)) (size : elems.length = vs.length)
      (each : ∀ p ∈ elems.zip vs, World.Presents w stamps p.1 p.2) :
      World.Presents w stamps (some id) (.array (stamps id) vs)
  | map {id : ObjId} {entries : List (Ref × Ref)} {ds : Entries}
      (object : w.ObjectAt id .map (.map entries)) (size : entries.length = ds.length)
      (keys : ∀ p ∈ entries.zip ds, World.Presents w stamps p.1.1 p.2.1)
      (values : ∀ p ∈ entries.zip ds, World.Presents w stamps p.1.2 p.2.2)
      (distinct : ds.Distinct) :
      World.Presents w stamps (some id) (.map (stamps id) ds)

/-! ## Entries side by side -/

/-- The keys and the values of entries are related. -/
abbrev Alongside (R : Ref → PlainValue → Prop) (es : List (Ref × Ref)) (ds : Entries) : Prop :=
  List.Forall₂ (fun e d => R e.1 d.1 ∧ R e.2 d.2) es ds

namespace Alongside

variable {R : Ref → PlainValue → Prop} {same : Ref → Ref → Bool} {es : List (Ref × Ref)}
  {ds : Entries} {a b : Ref} {u v : PlainValue}

/-- Keys compare as those that they are related to. -/
def Comparing (R : Ref → PlainValue → Prop) (same : Ref → Ref → Bool) : Prop :=
  ∀ a b u v, R a u → R b v → (same a b = true ↔ u.key = v.key)

theorem Comparing.eq_decide (hR : Comparing R same) (ha : R a u) (hb : R b v) :
    same a b = decide (u.key = v.key) := by
  rw [Bool.eq_iff_iff, decide_eq_true_iff]
  exact hR a b u v ha hb

theorem insertEntry (hR : Comparing R same) (hes : Alongside R es ds) (hd : ds.Distinct)
    (hkey : R a u) (hvalue : R b v) : Alongside R (insertEntry same a b es) (ds.put u v) := by
  induction hes with
  | nil => exact .cons ⟨hkey, hvalue⟩ .nil
  | @cons e d es ds hed hrest ih =>
      have hsame := hR.eq_decide hed.1 hkey
      by_cases heq : d.1.key = u.key
      · rw [decide_eq_true heq] at hsame
        rw [Entries.put_cons_of_eq hd heq, ObjectRuntime.insertEntry, if_pos hsame]
        exact .cons ⟨hed.1, hvalue⟩ hrest
      · rw [decide_eq_false heq] at hsame
        rw [Entries.put_cons_of_ne heq, ObjectRuntime.insertEntry, if_neg (by simp [hsame])]
        exact .cons hed (ih (List.pairwise_cons.mp hd).2)

/-- Entries that are put one after another into a map. -/
theorem collect (hR : Comparing R same) {pairs : List (Ref × Ref)}
    {vs : List (PlainValue × PlainValue)} (hpairs : Alongside R pairs vs)
    (hes : Alongside R es ds) (hd : ds.Distinct) :
    Alongside R (pairs.foldl (fun es e => ObjectRuntime.insertEntry same e.1 e.2 es) es)
        (vs.foldl (fun ds d => Entries.put ds d.1 d.2) ds) ∧
      Entries.Distinct (vs.foldl (fun ds d => Entries.put ds d.1 d.2) ds) := by
  induction hpairs generalizing es ds with
  | nil => exact ⟨hes, hd⟩
  | cons hed _ ih => exact ih (insertEntry hR hes hd hed.1 hed.2) (hd.put _ _)

theorem eraseP (hR : Comparing R same) (hes : Alongside R es ds) (hd : ds.Distinct)
    (hkey : R a u) : Alongside R (es.eraseP fun e => same e.1 a) (ds.erase u) := by
  induction hes with
  | nil => exact .nil
  | @cons e d es ds hed hrest ih =>
      have hsame := hR.eq_decide hed.1 hkey
      by_cases heq : d.1.key = u.key
      · rw [decide_eq_true heq] at hsame
        rw [Entries.erase_cons_of_eq hd heq, List.eraseP_cons, hsame]
        exact hrest
      · rw [decide_eq_false heq] at hsame
        rw [Entries.erase_cons_of_ne heq, List.eraseP_cons, hsame]
        exact .cons hed (ih (List.pairwise_cons.mp hd).2)

theorem any_eq_has (hR : Comparing R same) (hes : Alongside R es ds) (hkey : R a u) :
    (es.any fun e => same e.1 a) = ds.has u := by
  induction hes with
  | nil => rfl
  | cons hed _ ih => rw [List.any_cons, Entries.has_cons, hR.eq_decide hed.1 hkey, ih]

/-- What is found under a key. -/
theorem find? (hR : Comparing R same) (hes : Alongside R es ds) (hkey : R a u) :
    Option.Rel R ((es.find? fun e => same e.1 a).map (·.2)) (ds.valueAt? u) := by
  induction hes with
  | nil => exact .none
  | @cons e d es ds hed _ ih =>
      rw [Entries.valueAt?, List.find?_cons, List.find?_cons, hR.eq_decide hed.1 hkey]
      cases decide (d.1.key = u.key) with
      | true => exact .some hed.2
      | false => exact ih

theorem find?_of_none (hR : Comparing R same) (hes : Alongside R es ds) (hkey : R a u)
    (h : ds.valueAt? u = none) : (es.find? fun e => same e.1 a).map (·.2) = none := by
  have hfound := find? hR hes hkey
  rw [h] at hfound
  cases hsome : (es.find? fun e => same e.1 a).map (·.2) with
  | none => rfl
  | some b =>
      rw [hsome] at hfound
      cases hfound

theorem find?_of_some (hR : Comparing R same) (hes : Alongside R es ds) (hkey : R a u)
    (h : ds.valueAt? u = some v) :
    ∃ b, (es.find? fun e => same e.1 a).map (·.2) = some b ∧ R b v := by
  have hfound := find? hR hes hkey
  rw [h] at hfound
  cases hsome : (es.find? fun e => same e.1 a).map (·.2) with
  | none =>
      rw [hsome] at hfound
      cases hfound
  | some b =>
      rw [hsome] at hfound
      cases hfound with
      | some hb => exact ⟨b, rfl, hb⟩

end Alongside

namespace World.Presents

variable {stamps stamps' : ObjId → Nat} {r a b : Ref} {v u : PlainValue} {elems : List Ref}
  {vs : List PlainValue} {es : List (Ref × Ref)} {ds : Entries}

/-! ## Elements and entries -/

theorem of_elements (object : w.ObjectAt id .array (.array elems))
    (helems : List.Forall₂ (w.Presents stamps) elems vs) :
    w.Presents stamps (some id) (.array (stamps id) vs) := by
  obtain ⟨size, each⟩ := List.forall₂_iff_zip.mp helems
  exact .array object size fun p hp => each hp

theorem of_entries (object : w.ObjectAt id .map (.map es))
    (hentries : Alongside (w.Presents stamps) es ds) (distinct : ds.Distinct) :
    w.Presents stamps (some id) (.map (stamps id) ds) := by
  obtain ⟨size, each⟩ := List.forall₂_iff_zip.mp hentries
  exact .map object size (fun p hp => (each hp).1) (fun p hp => (each hp).2) distinct

theorem elements (h : w.Presents stamps r v) :
    List.Forall₂ (w.Presents stamps) (w.elements r) v.elements := by
  cases h with
  | null => exact .nil
  | array object size each =>
      rw [Arr.elements_of_payload object.content]
      exact List.forall₂_iff_zip.mpr ⟨size, fun hp => each _ hp⟩
  | text object | map object => simp [World.elements, object.content, PlainValue.elements]
  | @box _ c object =>
      cases c <;>
        simp [World.elements, object.content, PlainValue.elements, BoxContent.payload]

theorem entries (h : w.Presents stamps r v) :
    Alongside (w.Presents stamps) (w.entries r) v.entries := by
  cases h with
  | null => exact .nil
  | map object size keys values distinct =>
      rw [Dict.entries_of_payload object.content]
      exact List.forall₂_iff_zip.mpr ⟨size, fun hp => ⟨keys _ hp, values _ hp⟩⟩
  | text object | array object => simp [World.entries, object.content, PlainValue.entries]
  | @box _ c object =>
      cases c <;> simp [World.entries, object.content, PlainValue.entries, BoxContent.payload]

theorem distinct (h : w.Presents stamps r v) : Entries.Distinct v.entries := by
  cases h with
  | map _ _ _ _ distinct => exact distinct
  | _ => exact .nil

/-- The content of a string. -/
theorem text? (h : w.Presents stamps r v) : r.bind w.text? = v.text? := by
  cases h with
  | null => rfl
  | text object | array object | map object =>
      simp [World.text?, object.content, PlainValue.text?]
  | @box _ c object =>
      cases c <;> simp [World.text?, object.content, PlainValue.text?, BoxContent.payload]

/-- The content of a box. -/
theorem content? {kind : BoxKind} (h : w.Presents stamps r v)
    (htyped : (HandleType.box kind).mismatch? v = none) :
    Box.content? w r kind.like = v.content? := by
  rcases HandleType.mismatch?_box_eq_none.mp htyped with rfl | ⟨stamp, c, rfl, rfl⟩
  · cases h
    rfl
  · cases h with
    | box object =>
        cases c <;> simp [Box.content?, object.content, BoxContent.payload] <;> rfl

/-! ## What stays -/

/-- A reference shows what it has shown if no object below it has changed. -/
theorem mono (h : w.Presents stamps r v)
    (hkept : ∀ x, w.heap.Reachable r.toList x → stamps' x = stamps x ∧
      ∀ {c payload}, w.ObjectAt x c payload → w'.ObjectAt x c payload) :
    w'.Presents stamps' r v := by
  induction h with
  | null => exact .null
  | @text id _ object =>
      obtain ⟨hstamp, hobject⟩ := hkept id (.of_mem List.mem_cons_self)
      rw [← hstamp]
      exact .text (hobject object)
  | @box id _ object =>
      obtain ⟨hstamp, hobject⟩ := hkept id (.of_mem List.mem_cons_self)
      rw [← hstamp]
      exact .box (hobject object)
  | @array id elems vs object size each ih =>
      obtain ⟨hstamp, hobject⟩ := hkept id (.of_mem List.mem_cons_self)
      rw [← hstamp]
      refine .array (hobject object) size fun p hp => ih p hp fun x hx => hkept x ?_
      refine hx.through fun y hy => Run.reachable_of_payload (.of_mem List.mem_cons_self)
        object.content (List.reduceOption_mem_iff.mpr ?_)
      exact Option.mem_toList.mp hy ▸ (List.of_mem_zip hp).1
  | @map id entries ds object size keys values distinct ihKeys ihValues =>
      obtain ⟨hstamp, hobject⟩ := hkept id (.of_mem List.mem_cons_self)
      rw [← hstamp]
      have hbelow : ∀ p ∈ entries.zip ds, ∀ y, p.1.1 = some y ∨ p.1.2 = some y →
          w.heap.Reachable [id] y := by
        intro p hp y hy
        refine Run.reachable_of_payload (.of_mem List.mem_cons_self) object.content
          (List.mem_flatMap.mpr ⟨p.1, (List.of_mem_zip hp).1, ?_⟩)
        rcases hy with hy | hy <;> simp [hy]
      refine .map (hobject object) size (fun p hp => ihKeys p hp fun x hx => hkept x ?_)
        (fun p hp => ihValues p hp fun x hx => hkept x ?_) distinct
      · exact hx.through fun y hy => hbelow p hp y (.inl (Option.mem_toList.mp hy))
      · exact hx.through fun y hy => hbelow p hp y (.inr (Option.mem_toList.mp hy))

/-- A reference of the others shows what it has shown. -/
theorem since (h : w.Presents stamps r v) (hs : Since w others w')
    (hr : ∀ x, r = some x → w.heap.Reachable others x) : w'.Presents stamps r v := by
  refine h.mono fun x hx => ⟨rfl, fun object => object.since hs ?_⟩
  exact hx.through fun y hy => hr y (Option.mem_toList.mp hy)

/-- So it does while an object is made or changed and gets a new stamp. -/
theorem beside (h : w.Presents stamps r v) (hnew : w.Renews P others id c payload w')
    (hr : ∀ x, r = some x → w.heap.Reachable others x) (stamp : Nat) :
    w'.Presents (Function.update stamps id stamp) r v := by
  refine h.mono fun x hx => ?_
  have hothers : w.heap.Reachable others x :=
    hx.through fun y hy => hr y (Option.mem_toList.mp hy)
  refine ⟨Function.update_of_ne ?_ _ _, fun object => object.since hnew.since hothers⟩
  rintro rfl
  exact hnew.apart hothers

/-- A reference that goes into the object shows what it has shown. -/
theorem inside (h : w.Presents stamps r v) (hnew : w.Renews P others id c payload w')
    (hr : ∀ x, r = some x → x ∈ payload.references) (stamp : Nat) :
    w'.Presents (Function.update stamps id stamp) r v := by
  refine h.mono fun x hx => ?_
  obtain ⟨y, hy, hyx⟩ := hx
  have hbelow := hnew.below (hr y (Option.mem_toList.mp hy)) hyx
  have hne : x ≠ id := by
    rintro rfl
    exact hnew.balanced.owned.acyclic _ hbelow
  refine ⟨Function.update_of_ne hne _ _, fun object => ?_⟩
  obtain ⟨o, ho, -⟩ := object.alive
  obtain ⟨z, -, o₁, ho₁, hx⟩ := Relation.TransGen.tail'_iff.mp hbelow
  obtain ⟨o', ho'⟩ := hnew.balanced.owned.alive_of_reference ho₁ hx
  obtain ⟨htype, hpayload⟩ := hnew.rewrites x o o' hne ho ho'
  exact object.of_same ho ho' htype hpayload hnew.since.known

/-- A string that has been made shows its content. -/
theorem new_text {s : String} (hnew : w.Renews P others id .string (.text s) w')
    (stamps : ObjId → Nat) (stamp : Nat) :
    w'.Presents (Function.update stamps id stamp) (some id) (.text stamp s) := by
  have hshows : w'.Presents (Function.update stamps id stamp) (some id) (.text _ s) := .text hnew.made
  rwa [Function.update_self] at hshows

/-- So does a box that has been made or changed. -/
theorem new_box {content : BoxContent}
    (hnew : w.Renews P others id content.cls content.payload w') (stamps : ObjId → Nat)
    (stamp : Nat) :
    w'.Presents (Function.update stamps id stamp) (some id) (.box stamp content) := by
  have hshows : w'.Presents (Function.update stamps id stamp) (some id) (.box _ content) :=
    .box hnew.made
  rwa [Function.update_self] at hshows

/-- An array that has been made or changed shows what its elements have shown. -/
theorem new_array (hnew : w.Renews P others id .array (.array elems) w')
    (helems : List.Forall₂ (w.Presents stamps) elems vs) (stamp : Nat) :
    w'.Presents (Function.update stamps id stamp) (some id) (.array stamp vs) := by
  have hshows := of_elements hnew.made (List.forall₂_iff_zip.mpr ⟨helems.length_eq, fun hp =>
    (List.forall₂_zip helems hp).inside hnew (fun x hx => List.reduceOption_mem_iff.mpr
      (hx ▸ (List.of_mem_zip hp).1)) stamp⟩)
  rwa [Function.update_self] at hshows

/-- So does a map. -/
theorem new_map (hnew : w.Renews P others id .map (.map es) w')
    (hentries : Alongside (w.Presents stamps) es ds) (hdistinct : ds.Distinct) (stamp : Nat) :
    w'.Presents (Function.update stamps id stamp) (some id) (.map stamp ds) := by
  have hheld : ∀ e ∈ es, ∀ x, e.1 = some x ∨ e.2 = some x →
      x ∈ (Payload.map es : Payload κ).references := by
    intro e he x hx
    refine List.mem_flatMap.mpr ⟨e, he, ?_⟩
    rcases hx with hx | hx <;> simp [hx]
  have hshows := of_entries hnew.made (List.forall₂_iff_zip.mpr ⟨hentries.length_eq, fun hp =>
    ⟨(List.forall₂_zip hentries hp).1.inside hnew
        (fun x hx => hheld _ (List.of_mem_zip hp).1 x (.inl hx)) stamp,
      (List.forall₂_zip hentries hp).2.inside hnew
        (fun x hx => hheld _ (List.of_mem_zip hp).1 x (.inr hx)) stamp⟩⟩) hdistinct
  rwa [Function.update_self] at hshows

/-! ## Types -/

/-- The object is of the class of the value. -/
theorem object (h : w.Presents stamps (some id) v) :
    v.cls ∈ classes ∧ ∃ payload, w.ObjectAt id v.cls payload := by
  cases h with
  | text object | array object | map object => exact ⟨by simp [PlainValue.cls, classes], _, object⟩
  | @box _ c object => exact ⟨mem_classes_of_box c, _, object⟩

theorem typeKey (hregular : w.types.Regular) (h : w.Presents stamps (some id) v) :
    w.typeKey id = v.cls.key := by
  obtain ⟨-, payload, object⟩ := h.object
  exact hregular.showKey_classIndex object.cls

/-- An object belongs to its class and to no other. -/
theorem isInstance (hregular : w.types.Regular) (h : w.Presents stamps (some id) v)
    (hc : c ∈ classes) : w.isInstance id c = decide (v.cls = c) := by
  obtain ⟨hv, payload, object⟩ := h.object
  have hfinal : ∀ c ∈ classes, c.isFinal = true ∧ c.key ≠ ObjectClass.rootKey := by decide
  have hkeys : ∀ c ∈ classes, ∀ c' ∈ classes, c.key = c'.key → c = c' := by
    decide
  by_cases heq : v.cls = c
  · rw [decide_eq_true heq, ← heq]
    exact World.isInstance_of_ofClass object.cls
  · rw [decide_eq_false heq, Bool.eq_false_iff]
    intro hinstance
    have hclass := World.ofClass_of_isInstance hregular (hfinal c hc).1 (hfinal c hc).2 hinstance
    exact heq (hkeys _ hv _ hc (hregular.key_injective object.cls hclass))

/-- A check of references one after another is one of the values that they show. -/
theorem firstMismatch {R : Ref → PlainValue → Prop} {check : Ref → Option String}
    {check' : PlainValue → Option String} (hcheck : ∀ r v, R r v → check r = check' v)
    (tell : Nat → String → String) (helems : List.Forall₂ R elems vs) (start : Nat) :
    (World.firstMismatch check start elems).map (fun e => tell e.1 e.2) =
      (vs.zipIdx start).findSome? fun e => (check' e.1).map (tell e.2) := by
  induction helems generalizing start with
  | nil => rfl
  | @cons r v elems vs hrv _ ih =>
      rw [World.firstMismatch, List.zipIdx_cons, List.findSome?_cons, hcheck r v hrv]
      cases check' v with
      | none => exact ih (start + 1)
      | some m => rfl

/-- So is one of entries. -/
theorem findSome? {check : Ref × Ref → Option String}
    {check' : PlainValue × PlainValue → Option String}
    (hcheck : ∀ e d, w.Presents stamps e.1 d.1 → w.Presents stamps e.2 d.2 → check e = check' d)
    (hes : Alongside (w.Presents stamps) es ds) : es.findSome? check = ds.findSome? check' := by
  induction hes with
  | nil => rfl
  | cons hed _ ih => rw [List.findSome?_cons, List.findSome?_cons, hcheck _ _ hed.1 hed.2, ih]

theorem mismatch?_named (hregular : w.types.Regular) (h : w.Presents stamps (some id) v)
    (name : String) (hc : c ∈ classes) :
    w.mismatch? (.named name c) (some id) = if v.cls = c then none else some v.cls.key := by
  rw [World.mismatch?, h.isInstance hregular hc, h.typeKey hregular]
  by_cases heq : v.cls = c <;> simp [heq]

/-- An object is checked against a type of arrays as the value is, if its elements are. -/
theorem mismatch?_array {elem : HandleType} (hregular : w.types.Regular)
    (h : w.Presents stamps (some id) v)
    (helem : ∀ r v, w.Presents stamps r v → w.mismatch? elem.ref r = elem.mismatch? v) :
    w.mismatch? (HandleType.array elem).ref (some id) = (HandleType.array elem).mismatch? v := by
  have hkey := h.typeKey hregular
  cases h with
  | array object size each =>
      simp only [HandleType.ref, World.mismatch?, object.content]
      have helems : List.Forall₂ (w.Presents stamps) _ _ :=
        List.forall₂_iff_zip.mpr ⟨size, fun hp => each _ hp⟩
      exact firstMismatch helem (fun i m => s!"Array[index {i}: {m}]") helems 0
  | text object | map object =>
      simp only [HandleType.ref, World.mismatch?, object.content, hkey]
      rfl
  | @box _ c object =>
      simp only [HandleType.ref, World.mismatch?, object.content, hkey]
      cases c <;> rfl

/-- So it is against a type of maps, if its keys and values are. -/
theorem mismatch?_map {key value : HandleType} (hregular : w.types.Regular)
    (h : w.Presents stamps (some id) v)
    (hkeys : ∀ r v, w.Presents stamps r v → w.mismatch? key.ref r = key.mismatch? v)
    (hvalues : ∀ r v, w.Presents stamps r v → w.mismatch? value.ref r = value.mismatch? v) :
    w.mismatch? (HandleType.map key value).ref (some id) =
      (HandleType.map key value).mismatch? v := by
  have hkey := h.typeKey hregular
  cases h with
  | map object size keys values =>
      simp only [HandleType.ref, World.mismatch?, object.content]
      refine findSome? (fun e d hk hv => ?_)
        (List.forall₂_iff_zip.mpr ⟨size, fun hp => ⟨keys _ hp, values _ hp⟩⟩)
      rw [hkeys _ _ hk, hvalues _ _ hv]
      cases key.mismatch? d.1 <;> rfl
  | text object | array object =>
      simp only [HandleType.ref, World.mismatch?, object.content, hkey]
      rfl
  | @box _ c object =>
      simp only [HandleType.ref, World.mismatch?, object.content, hkey]
      cases c <;> rfl

/-- A reference is checked against a type as the value is. -/
theorem mismatch? (hregular : w.types.Regular) (t : HandleType) (h : w.Presents stamps r v) :
    w.mismatch? t.ref r = t.mismatch? v := by
  induction t generalizing r v with
  | object => cases h <;> rfl
  | string =>
      cases r with
      | none =>
          cases h
          rfl
      | some id =>
          refine (h.mismatch?_named hregular _ (by decide)).trans ?_
          cases h <;> rfl
  | box kind =>
      cases r with
      | none =>
          cases h
          cases kind <;> rfl
      | some id =>
          have hnamed : w.mismatch? kind.ref (some id) =
              if v.cls = kind.ref.cls then none else some v.cls.key := by
            cases kind <;> exact h.mismatch?_named hregular _ (by decide)
          refine hnamed.trans ?_
          cases h <;> rfl
  | array elem ih =>
      cases r with
      | none =>
          cases h
          rfl
      | some id => exact h.mismatch?_array hregular fun _ _ => ih
  | map key value ihKey ihValue =>
      cases r with
      | none =>
          cases h
          rfl
      | some id => exact h.mismatch?_map hregular (fun _ _ => ihKey) fun _ _ => ihValue

/-! ## Keys -/

/-- What is no string is compared by what it refers to. -/
theorem key_of_no_text (h : w.Presents stamps r v) (htext : v.text? = none) :
    v.key = r.elim .null fun x => .stamp (stamps x) := by
  cases h with
  | text => cases htext
  | _ => rfl

/-- Keys compare as the values do if no two of the objects have the same stamp. -/
theorem sameKey_iff (ha : w.Presents stamps a u) (hb : w.Presents stamps b v)
    (hdistinct : ∀ x y, a = some x → b = some y → stamps x = stamps y → x = y) :
    w.sameKey a b = true ↔ u.key = v.key := by
  -- a string and another object are not one object
  have hne : u.text? ≠ v.text? → ¬ (a == b) = true := by
    intro htext heq
    obtain rfl := eq_of_beq heq
    exact htext (ha.text?.symm.trans hb.text?)
  rw [World.sameKey, ha.text?, hb.text?]
  cases hu : u.text? with
  | some s =>
      rw [PlainValue.key_of_text? hu]
      cases hv : v.text? with
      | some t => simp [PlainValue.key_of_text? hv]
      | none =>
          rw [hb.key_of_no_text hv]
          refine iff_of_false (hne (by simp [hu, hv])) ?_
          cases b <;> simp
  | none =>
      rw [ha.key_of_no_text hu]
      cases hv : v.text? with
      | some t =>
          rw [PlainValue.key_of_text? hv]
          refine iff_of_false (hne (by simp [hu, hv])) ?_
          cases a <;> simp
      | none =>
          rw [hb.key_of_no_text hv]
          cases a with
          | none => cases b <;> simp
          | some x =>
              cases b with
              | none => simp
              | some y =>
                  have hxy : x = y ↔ stamps x = stamps y :=
                    ⟨fun heq => congrArg stamps heq, hdistinct x y rfl rfl⟩
                  simp [hxy]

/-- A key is shown as the value is. -/
theorem showKey (hregular : w.types.Regular) (h : w.Presents stamps r v) :
    Dict.showKey w r = v.keyText := by
  cases r with
  | none =>
      cases h
      rfl
  | some id =>
      have htext : w.text? id = v.text? := h.text?
      have hkey := h.typeKey hregular
      rw [Dict.showKey, htext, hkey]
      cases h <;> rfl

end World.Presents

end ObjectRuntime
