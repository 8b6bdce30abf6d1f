import ObjectRuntime.Proofs.Container.Rebuilding
import ObjectRuntime.Proofs.Reflection.Nodes
set_option autoImplicit false

/-!
# Containers are converted part by part

A conversion to a container type gives the container itself if all of its parts pass the check.
Otherwise it makes a new container whose parts are the conversions of the old ones, in the same
order and as many.  No entry of a map is lost: keys that are passed on are as different as they
were, and objects that have been made in the course of the conversion are no strings and differ from
all others.
-/

namespace ObjectRuntime

open ObjectClass (Vocabulary)
open Run (Advances Borrowed Conserves)
open World (Balanced Continues Proceeds Ready Reaches Since)
open Views (passAs)

variable {κ α β : Type} {P : κ → Prop} {w w' w₁ w₂ : World κ} {cs : List ObjectClass}
  {others held : List ObjId} {a b : ObjId} {c : ObjectClass} {r r' : Ref} {v : Value}
  {t elem key value : RefType} {parts : List (RefType × Ref)} {m : String}

namespace World

/-! ## What has been made meanwhile -/

/-- A content that others can reach is as it was. -/
theorem Since.content {content : Payload κ} (h : Since w others w') (ha : w.heap.Reachable others a)
    (hcontent : w.payload? a = some content) : w'.payload? a = some content := by
  obtain ⟨o, ho, rfl⟩ := Option.map_eq_some_iff.mp hcontent
  obtain ⟨n, hn⟩ := h.intact a o ha ho
  simp only [World.payload?, hn, Option.map_some]

/-- Those who reach less see less. -/
theorem Proceeds.of_reachable (h : w.Proceeds others w')
    (hsub : ∀ x ∈ held, w.heap.Reachable others x) : w.Proceeds held w' := by
  refine ⟨⟨h.since.becomes, fun x o hx ho => ?_, h.since.known⟩, h.later⟩
  obtain ⟨y, hy, hyx⟩ := hx
  obtain ⟨z, hz, hzy⟩ := hsub y hy
  exact h.since.intact x o ⟨z, hz, hzy.trans hyx⟩ ho

/-- An object that is no string, made since there was the world at hand. -/
def MadeSince (w : World κ) (w' : World κ) (b : ObjId) : Prop :=
  w.heap.cells.size ≤ b.index ∧ ∃ content, w'.payload? b = some content ∧ ∀ s, content ≠ .text s

/-- It goes on being so while it is held. -/
theorem MadeSince.later (h : w.MadeSince w₁ b) (hproceeds : w₁.Proceeds others w')
    (hb : b ∈ others) : w.MadeSince w' b := by
  obtain ⟨hnew, content, hcontent, hother⟩ := h
  exact ⟨hnew, content, hproceeds.since.content (.of_mem hb) hcontent, hother⟩

/-- What has been made later has been made since. -/
theorem MadeSince.earlier (h : w₁.MadeSince w' b) (hproceeds : w.Proceeds others w₁) :
    w.MadeSince w' b := ⟨hproceeds.size_le.trans h.1, h.2⟩

/-- It differs from what was there. -/
theorem MadeSince.ne (h : w.MadeSince w' b) (hb : w.Balanced P held)
    (hx : w.heap.Reachable held a) : b ≠ a := by
  rintro rfl
  obtain ⟨o, ho⟩ := hb.alive hx
  exact Nat.not_lt.mpr h.1 (Heap.lt_size_of_get? ho)

/-- As a key it is compared by identity. -/
theorem MadeSince.sameKey (h : w.MadeSince w' b) {k : Ref} (hne : k ≠ some b) :
    w'.sameKey (some b) k = false ∧ w'.sameKey k (some b) = false := by
  obtain ⟨-, content, hcontent, hother⟩ := h
  have htext : (some b : Ref).bind w'.text? = none := by
    rw [Option.bind_some, text?, hcontent]
    cases content with
    | text s => exact absurd rfl (hother s)
    | _ => rfl
  have hkeys : ∀ {k l : Ref}, k.bind w'.text? = none ∨ l.bind w'.text? = none →
      w'.sameKey k l = (k == l) := by
    intro k l hnone
    rw [World.sameKey]
    split
    · rename_i hk hl
      rcases hnone with hnone | hnone
      · cases hnone.symm.trans hk
      · cases hnone.symm.trans hl
    · rfl
  constructor
  · rw [hkeys (.inl htext), beq_eq_false_iff_ne]
    exact hne.symm
  · rw [hkeys (.inr htext), beq_eq_false_iff_ne]
    exact hne

/-- No object travels as nothing or as a text. -/
theorem classify_plain (w : World κ) (a : ObjId) (moved : Bool) :
    w.classify a moved ≠ .null ∧ ∀ s, w.classify a moved ≠ .text s := by
  rcases classify_cases w a moved with ⟨tag, htag⟩ | ⟨x, hboxed, hx⟩
  · simp [htag]
  · rw [hx]
    obtain ⟨content, -, hboxed⟩ := Option.bind_eq_some_iff.mp hboxed
    split_ifs at hboxed
    all_goals
      obtain ⟨n, -, rfl⟩ := Option.map_eq_some_iff.mp hboxed
      simp

/-- Only texts are put into strings. -/
theorem boxings_content (hplain : ∀ s, v ≠ .text s) :
    ∀ p ∈ (boxings v : List (ObjectClass × Payload κ)), ∀ s, p.2 ≠ .text s := by
  cases v with
  | text s => exact absurd rfl (hplain s)
  | null | bytes | dataType | device | handle | tensorHandle | object =>
      exact fun _ hp => absurd hp List.not_mem_nil
  | int | float | bool => simp [boxings]

end World

/-! ## What a conversion gives -/

namespace Run

/-- A renewal that succeeds has made a new container. -/
theorem renew_eq_ok {rebuild : ObjId → Run κ ObjId} (hrun : renew t a m rebuild w = (.ok r, w')) :
    ∃ b w₁, rebuild a w = (.ok b, w₁) ∧ r = some b ∧
      w' = { w₁ with heap := w₁.heap.release a } := by
  obtain ⟨answer, w₁, hrebuild, hdone⟩ := run_bind_eq_ok.mp hrun
  obtain ⟨w₂, hattempt, rfl⟩ := releasing_eq_ok hrebuild
  cases answer with
  | error cause => cases hdone
  | ok b =>
      cases hdone
      exact ⟨b, w₂, attempt_eq_ok.mp hattempt, rfl, rfl⟩

end Run

namespace World.Ready

variable (h : Ready P cs others held w) (hcs : Vocabulary cs)
include h hcs

/-- What a conversion to a container type has done if it has succeeded. -/
theorem container_inv (ht : t.Within (· ∈ cs)) (hcontainer : t.IsContainer)
    (hv : Borrowed w others v) (hrun : Run.decodeRef t v w = (.ok r, w')) :
    (v = .null ∧ r = none) ∨ ∃ a parts w₁, v.object? = some a ∧ w.Parts t a parts ∧
      Ready P cs others (a :: held) w₁ ∧ w.Continues cs others w₁ ∧
      ((w.recalled.mismatch? t (some a) = none ∧ r = some a ∧ w' = w₁) ∨
        w.recalled.mismatch? t (some a) ≠ none ∧ ∃ b w₂, Run.rebuildAs t a w₁ = (.ok b, w₂) ∧
          r = some b ∧ w' = { w₂ with heap := w₂.heap.release a }) := by
  rw [Run.decodeRef_container hcontainer] at hrun
  by_cases hnull : v = .null
  · subst hnull
    cases hrun
    exact .inl ⟨rfl, rfl⟩
  refine .inr ?_
  cases hobject : v.object? with
  | none =>
      obtain ⟨cause, w₁, herror⟩ := h.decodeContainer_plain hcs ht hcontainer hobject hnull
        (Run.rebuildAs t)
      cases herror.symm.trans hrun
  | some a =>
      obtain ⟨tag, rfl⟩ := Value.eq_of_object? hobject
      have ha := hv a rfl
      by_cases hsome : ∃ parts, w.Parts t a parts
      · obtain ⟨parts, hparts⟩ := hsome
        obtain ⟨w₁, h₁, hcontinues, hdecode⟩ :=
          h.decodeContainer_object hcs ht hcontainer ha hparts tag (Run.rebuildAs t)
        refine ⟨a, parts, w₁, rfl, hparts, h₁, hcontinues, ?_⟩
        rw [hdecode] at hrun
        cases hcheck : w.recalled.mismatch? t (some a) with
        | none =>
            rw [hcheck] at hrun
            cases hrun
            exact .inl ⟨rfl, rfl, rfl⟩
        | some m =>
            rw [hcheck] at hrun
            exact .inr ⟨Option.some_ne_none m, Run.renew_eq_ok hrun⟩
      · obtain ⟨cause, w₁, herror⟩ := h.decodeContainer_other hcs ht hcontainer ha hsome tag
          (Run.rebuildAs t)
        cases herror.symm.trans hrun

end World.Ready

/-! ## Parts and what is made of them -/

namespace Views

/-- The reference has been converted since there was the world at hand, and what was made of it is
as it was then. -/
def Made (w : World κ) (others : List ObjId) (t : RefType) (r r' : Ref) (w' : World κ) : Prop :=
  ∃ w₁ w₂, w.Proceeds others w₁ ∧ passAs t r w₁ = (.ok r', w₂) ∧ w₂.Proceeds r'.toList w'

theorem Made.later (h : Made w others t r r' w₁) (hproceeds : w₁.Proceeds r'.toList w') :
    Made w others t r r' w' := by
  obtain ⟨u, u', hbefore, hrun, hkept⟩ := h
  exact ⟨u, u', hbefore, hrun, hkept.trans hproceeds⟩

/-- A key has stayed what it was, or is a new object and no string. -/
def KeyMade (w w' : World κ) (k k' : Ref) : Prop :=
  k' = k ∨ ∃ b, k' = some b ∧ w.MadeSince w' b

theorem Made.earlier (h : Made w₁ others t r r' w') (hproceeds : w.Proceeds others w₁) :
    Made w others t r r' w' := by
  obtain ⟨u, u', hbefore, hrun, hkept⟩ := h
  exact ⟨u, u', hproceeds.trans hbefore, hrun, hkept⟩

theorem KeyMade.earlier {k k' : Ref} (h : KeyMade w₁ w' k k') (hproceeds : w.Proceeds others w₁) :
    KeyMade w w' k k' := by
  refine h.imp_right ?_
  rintro ⟨b, rfl, hmade⟩
  exact ⟨b, rfl, hmade.earlier hproceeds⟩

theorem KeyMade.later {k k' : Ref} (h : KeyMade w w₁ k k') (hproceeds : w₁.Proceeds k'.toList w') :
    KeyMade w w' k k' := by
  refine h.imp_right ?_
  rintro ⟨b, rfl, hmade⟩
  exact ⟨b, rfl, hmade.later hproceeds List.mem_cons_self⟩

/-- An entry has been converted, its key and its value. -/
structure EntryMade (w : World κ) (others : List ObjId) (key value : RefType) (e e' : Ref × Ref)
    (w' : World κ) : Prop where
  key : Made w others key e.1 e'.1 w'
  value : Made w others value e.2 e'.2 w'
  origin : KeyMade w w' e.1 e'.1

namespace EntryMade

variable {e e' : Ref × Ref}

theorem earlier (h : EntryMade w₁ others key value e e' w') (hproceeds : w.Proceeds others w₁) :
    EntryMade w others key value e e' w' :=
  ⟨h.key.earlier hproceeds, h.value.earlier hproceeds, h.origin.earlier hproceeds⟩

theorem later (h : EntryMade w others key value e e' w₁)
    (hproceeds : w₁.Proceeds (Run.entryReferences e') w') :
    EntryMade w others key value e e' w' := by
  have hkey : w₁.Proceeds e'.1.toList w' := hproceeds.mono fun _ => List.mem_append_left _
  exact ⟨h.key.later hkey, h.value.later (hproceeds.mono fun _ => List.mem_append_right _),
    h.origin.later hkey⟩

end EntryMade

/-- Entries that have been converted have keys and values that have been. -/
theorem forall₂_entryParts {entries entries' : List (Ref × Ref)}
    (h : List.Forall₂ (fun e e' => EntryMade w others key value e e' w') entries entries') :
    List.Forall₂ (fun p p' => p'.1 = p.1 ∧ Made w others p.1 p.2 p'.2 w')
      (entries.flatMap fun e => [(key, e.1), (value, e.2)])
      (entries'.flatMap fun e => [(key, e.1), (value, e.2)]) := by
  induction h with
  | nil => exact .nil
  | cons hentry _ ih => exact .cons ⟨rfl, hentry.key⟩ (.cons ⟨rfl, hentry.value⟩ ih)

end Views

open Views (EntryMade Made KeyMade)

/-! ## New containers -/

namespace Run

theorem madeSince_create {payload : Payload κ} (hother : ∀ s, payload ≠ .text s)
    (hrun : create c payload w = (.ok b, w')) : w.MadeSince w' b := by
  obtain ⟨first, w₁, -, -, -, rfl, -⟩ := create_inv hrun
  exact ⟨Nat.le_refl _, payload, (isFresh_of_create hrun).objectAt.content, hother⟩

end Run

/-- The parts that a new container takes over are as they were. -/
theorem World.Renews.proceeds {payload : Payload κ} (h : w.Renews P held b c payload w')
    (hlater : TypeTable.Later w.types w'.types) : w.Proceeds payload.references w' :=
  ⟨⟨h.since.becomes, h.remakes.intact, h.since.known⟩, hlater⟩

namespace World

/-- A new container of the type has been made of the parts. -/
structure Rebuilt (w : World κ) (others : List ObjId) (t : RefType) (parts : List (RefType × Ref))
    (b : ObjId) (w' : World κ) : Prop where
  fresh : w.MadeSince w' b
  cls : w'.OfClass b t.cls
  parts : ∃ parts', w'.Parts t b parts' ∧
    List.Forall₂ (fun p p' => p'.1 = p.1 ∧ Made w others p.1 p.2 p'.2 w') parts parts'

namespace Rebuilt

theorem earlier (h : w₁.Rebuilt others t parts b w') (hproceeds : w.Proceeds others w₁) :
    w.Rebuilt others t parts b w' := by
  obtain ⟨hfresh, hcls, parts', hparts, hall⟩ := h
  exact ⟨hfresh.earlier hproceeds, hcls, parts', hparts,
    hall.imp fun _ _ hpair => ⟨hpair.1, hpair.2.earlier hproceeds⟩⟩

/-- Whoever holds it goes on holding a container that has been made of the parts. -/
theorem later (h : w.Rebuilt others t parts b w₁) (hproceeds : w₁.Proceeds held w')
    (hb : b ∈ held) : w.Rebuilt others t parts b w' := by
  obtain ⟨hfresh, hcls, parts', hparts, hall⟩ := h
  have hreach : w₁.heap.Reachable held b := .of_mem hb
  obtain ⟨-, content, hcontent, -⟩ := id hfresh
  have hsame : w'.payload? b = w₁.payload? b :=
    (hproceeds.since.content hreach hcontent).trans hcontent.symm
  have hat : w₁.ObjectAt b t.cls content := ⟨hcls, hcontent⟩
  refine ⟨hfresh.later hproceeds hb, (hat.since hproceeds.since hreach).cls, parts',
    hparts.congr hsame, forall₂_imp_mem hall fun p p' _ hp' hpair =>
      ⟨hpair.1, hpair.2.later (hproceeds.of_reachable fun x hx => ?_)⟩⟩
  exact hparts.reaches hreach p' hp' x (Option.mem_toList.mp hx)

end Rebuilt

namespace Ready

variable (h : Ready P cs others held w) (hcs : Vocabulary cs)
include h hcs

/-- Elements have been converted one after another. -/
theorem made_elements {elems elems' : List Ref} (ht : elem.Within (· ∈ cs))
    (ha : w.heap.Reachable others a) (hcontent : w.payload? a = some (.array elems))
    (hrun : Run.mapOwned Option.toList (passAs elem) elems w = (.ok elems', w')) :
    Ready P cs others (elems'.flatMap Option.toList ++ held) w' ∧ w.Continues cs others w' ∧
      List.Forall₂ (fun e e' => Made w others elem e e' w') elems elems' := by
  have hmade : ∀ e ∈ elems, ∀ w₁ held₁ e' w₂, Ready P cs others held₁ w₁ →
      w.Continues cs others w₁ → passAs elem e w₁ = (.ok e', w₂) →
      Made w others elem e e' w₂ ∧ ∀ e₀ : Ref, (∀ x ∈ e₀.toList, x ∈ held₁) → True := by
    intro e he w₁ held₁ e' w₂ h₁ hcontinues hpass
    obtain ⟨h₂, -⟩ := h₁.after_passAs hcs ht (hcontinues.reaches (.element ha hcontent he)) hpass
    exact ⟨⟨w₁, w₂, hcontinues.proceeds, hpass, .refl h₂.regular _⟩, fun _ _ => trivial⟩
  obtain ⟨h', hcontinues, -, hall, -⟩ := Run.mapOwned_made
    (R := fun w' e e' => Made w others elem e e' w') (S := fun _ _ => True) hcs
    (Views.advances_passAs hcs.covers ht) (fun hproceeds hmade => hmade.later hproceeds) h
    (conserves_element ha hcontent) hmade hrun
  exact ⟨h', hcontinues, hall⟩

/-- A new array of what has been made of the elements. -/
theorem rebuilt_array {elems : List Ref} (ht : elem.Within (· ∈ cs))
    (ha : w.heap.Reachable others a) (hcontent : w.payload? a = some (.array elems))
    (hrun : Run.rebuildArray (Run.decodeRef elem) a w = (.ok b, w')) :
    w.Rebuilt others (.array elem) (elems.map fun e => (elem, e)) b w' ∧
      Ready P cs others (b :: held) w' ∧ w.Continues cs others w' := by
  rw [Run.rebuildArray, run_get_bind, Arr.elements_of_payload hcontent] at hrun
  obtain ⟨elems', w₁, hloop, hcreate⟩ := run_bind_eq_ok.mp hrun
  obtain ⟨h₁, hcontinues₁, hall⟩ := h.made_elements hcs ht ha hcontent hloop
  obtain ⟨id, hid, hrenews⟩ := Arr.renews_ofList h₁.balanced (run_map_of_ok (f := some) hcreate)
  cases hid
  have hreferences : (Payload.array elems' : Payload κ).references =
      elems'.flatMap Option.toList := Run.reduceOption_eq_flatMap elems'
  have hheld : w₁.Balanced P ((Payload.array elems' : Payload κ).references ++ ([] ++ held)) := by
    rw [hreferences]
    exact h₁.balanced
  have hsuits : Run.Suits P .array (.array elems') := rfl
  obtain ⟨h₂, hcontinues₂⟩ := h₁.spends hcs h.among (Run.conserves_create [] hheld hsuits)
    (Run.advances_create (hcs.builtins .array (by decide)) _) hcreate
  have hproceeds := hrenews.proceeds hcontinues₂.proceeds.later
  rw [hreferences] at hproceeds
  have hother : ∀ s, (Payload.array elems' : Payload κ) ≠ .text s := by
    intro s hs
    cases hs
  refine ⟨⟨(Run.madeSince_create hother hcreate).earlier hcontinues₁.proceeds, hrenews.made.cls, _,
    .array hrenews.made.content, ?_⟩, h₂, hcontinues₁.trans hcontinues₂⟩
  rw [List.forall₂_map_left_iff, List.forall₂_map_right_iff]
  refine forall₂_imp_mem hall fun e e' _ he' hmade => ⟨rfl, hmade.later (hproceeds.mono ?_)⟩
  exact fun x hx => List.mem_flatMap.mpr ⟨e', he', hx⟩

omit h in
/-- A new map of entries that have been made. -/
theorem collected {pairs : List (Ref × Ref)}
    (h : Ready P cs others (pairs.flatMap Run.entryReferences ++ held) w)
    (hamong : ∀ x ∈ others, x ∈ held)
    (hrun : (do Run.create .map (.map (← Run.collectEntries pairs))) w = (.ok b, w')) :
    w.MadeSince w' b ∧ Ready P cs others (b :: held) w' ∧ w.Continues cs others w' := by
  obtain ⟨entries, w₁, hcollect, hcreate⟩ := run_bind_eq_ok.mp hrun
  obtain ⟨h₁, hcontinues₁⟩ := h.spends hcs hamong (Run.conserves_collectEntries h.balanced)
    (Run.advances_collectEntries hcs.covers pairs) hcollect
  have hheld : w₁.Balanced P ((Payload.map entries : Payload κ).references ++ ([] ++ held)) :=
    h₁.balanced
  have hsuits : Run.Suits P .map (.map entries) := rfl
  obtain ⟨h₂, hcontinues₂⟩ := h₁.spends hcs hamong (Run.conserves_create [] hheld hsuits)
    (Run.advances_create (hcs.builtins .map (by decide)) _) hcreate
  have hother : ∀ s, (Payload.map entries : Payload κ) ≠ .text s := by
    intro s hs
    cases hs
  exact ⟨(Run.madeSince_create hother hcreate).earlier hcontinues₁.proceeds, h₂,
    hcontinues₁.trans hcontinues₂⟩

/-- A renewed container is new. -/
theorem madeSince_rebuildAs (ht : t.Within (· ∈ cs)) (ha : w.heap.Reachable others a)
    (hparts : w.Parts t a parts) (hrun : Run.rebuildAs t a w = (.ok b, w')) :
    w.MadeSince w' b ∧ Ready P cs others (b :: held) w' ∧ w.Continues cs others w' := by
  cases hparts with
  | @array elem a elems content =>
      have helem : elem.Within (· ∈ cs) := ht
      have harray : Run.rebuildArray (Run.decodeRef elem) a w = (.ok b, w') := hrun
      obtain ⟨hrebuilt, h', hcontinues⟩ := h.rebuilt_array hcs helem ha content harray
      exact ⟨hrebuilt.fresh, h', hcontinues⟩
  | @map key value a entries content =>
      have hmap : Run.rebuildMap (Run.decodeRef key) (Run.decodeRef value) a w = (.ok b, w') := hrun
      rw [Run.rebuildMap, run_get_bind, Dict.entries_of_payload content] at hmap
      obtain ⟨pairs, w₁, hloop, hrest⟩ := run_bind_eq_ok.mp hmap
      obtain ⟨h₁, hcontinues₁, -⟩ := Run.mapOwned_made (R := fun _ _ _ => True)
        (S := fun _ _ => True) hcs (advances_entry hcs.covers ht) (fun _ _ => trivial) h
        (conserves_entry ha content) (fun _ _ _ _ _ _ _ _ _ => ⟨trivial, fun _ _ => trivial⟩) hloop
      obtain ⟨hmade, h₂, hcontinues₂⟩ := collected hcs h₁ h.among hrest
      exact ⟨hmade.earlier hcontinues₁.proceeds, h₂, hcontinues₁.trans hcontinues₂⟩

/-- A container is passed on, or a new one is made. -/
theorem origin_container (ht : t.Within (· ∈ cs)) (hcontainer : t.IsContainer)
    (hv : Borrowed w others v) (hrun : Run.decodeRef t v w = (.ok r, w')) :
    (r = v.object? ∧ (v.object? = none → v = .null)) ∨ ∃ b, r = some b ∧ w.MadeSince w' b := by
  rcases h.container_inv hcs ht hcontainer hv hrun with
    ⟨rfl, rfl⟩ | ⟨a, parts, w₁, hobject, hparts, h₁, hcontinues, hresult⟩
  · exact .inl ⟨rfl, fun _ => rfl⟩
  rcases hresult with ⟨-, rfl, -⟩ | ⟨-, b, w₂, hrebuild, rfl, rfl⟩
  · refine .inl ⟨hobject.symm, fun hnone => ?_⟩
    cases hobject.symm.trans hnone
  have ha := hv a hobject
  obtain ⟨hmade, h₂, -⟩ := h₁.madeSince_rebuildAs hcs ht (hcontinues.proceeds.since.reachable ha)
    (hparts.congr (hcontinues.payload? ha)) hrebuild
  have hheld : w₂.Balanced P ([a] ++ (b :: held)) := h₂.balanced.perm (.swap _ _ _)
  obtain ⟨hreleased, -⟩ := Run.proceeds_releases h₂.regular hheld
  exact .inr ⟨b, rfl, (hmade.earlier hcontinues.proceeds).later hreleased List.mem_cons_self⟩

/-- A conversion passes the object on that a value carries, or makes a new one that is no string. -/
theorem origin (ht : t.Within (· ∈ cs)) (hv : Borrowed w others v) (hplain : ∀ s, v ≠ .text s)
    (hrun : Run.decodeRef t v w = (.ok r, w')) :
    (r = v.object? ∧ (v.object? = none → v = .null)) ∨ ∃ b, r = some b ∧ w.MadeSince w' b := by
  cases t with
  | named name cls =>
      by_cases hnull : v = .null
      · subst hnull
        cases hrun
        exact .inl ⟨rfl, fun _ => rfl⟩
      cases hobject : v.object? with
      | some a =>
          obtain ⟨tag, rfl⟩ := Value.eq_of_object? hobject
          obtain ⟨_, w₁, -, hmember⟩ := run_bind_eq_ok.mp hrun
          cases hobject
          refine .inl ⟨Run.eq_of_memberOf hmember, fun hnone => ?_⟩
          cases hnone
      | none =>
          rcases h.objectOf_plain hcs ht hobject hnull with
            ⟨p, hp, -, b, w₁, hmade, hat, hnew⟩ | ⟨-, cause, w₁, herror⟩
          · cases hmade.symm.trans hrun
            exact .inr ⟨b, rfl, hnew, p.2, hat.content, boxings_content hplain p hp⟩
          · cases herror.symm.trans hrun
  | array elem => exact h.origin_container hcs (t := .array elem) ht trivial hv hrun
  | map key value => exact h.origin_container hcs (t := .map key value) ht trivial hv hrun

/-- So does the conversion of a reference. -/
theorem keyMade (ht : t.Within (· ∈ cs)) (hr : w.Reaches others r)
    (hrun : passAs t r w = (.ok r', w')) : KeyMade w w' r r' := by
  obtain ⟨w₁, htravel⟩ := h.travel hcs hr
  obtain ⟨h₁, hcontinues⟩ := h.quiet hcs (Run.quiet_travel r false)
    (Run.advances_travel hcs.covers r false) htravel
  rw [passAs, run_bind_of_ok htravel] at hrun
  have hv : Borrowed w₁ others (w.recalled.classifyRef r false) := (hcontinues.reaches hr).borrowed
  have hplain : ∀ s, w.recalled.classifyRef r false ≠ .text s := by
    cases r with
    | none =>
        intro s hs
        cases hs
    | some a => exact (classify_plain w.recalled a false).2
  rcases h₁.origin hcs ht hv hplain hrun with ⟨rfl, hnull⟩ | ⟨b, rfl, hmade⟩
  · refine .inl ?_
    cases r with
    | none => rfl
    | some a =>
        cases hobject : (w.recalled.classifyRef (some a) false).object? with
        | none => exact absurd (hnull hobject) (classify_plain w.recalled a false).1
        | some b => exact (Run.object?_classifyRef hobject).symm
  · exact .inr ⟨b, rfl, hmade.earlier hcontinues.proceeds⟩

/-- An entry has been converted, and its key is none that was held before unless it is the same as
it was. -/
theorem made_entry {e e' : Ref × Ref} (ht : (RefType.map key value).Within (· ∈ cs))
    (hk : w.Reaches others e.1) (hv : w.Reaches others e.2)
    (hrun : Run.decodeEntry (Run.decodeRef key) (Run.decodeRef value) e w = (.ok e', w')) :
    EntryMade w others key value e e' w' ∧ ∀ x ∈ held, e'.1 = some x → e.1 = some x := by
  rw [Views.decodeEntry_eq] at hrun
  obtain ⟨k, w₁, hkey, hrest⟩ := run_bind_eq_ok.mp hrun
  obtain ⟨v, w₂, hvalue, hdone⟩ := run_bind_eq_ok.mp hrest
  cases hdone
  have hvalue := Run.releasingOnFault_eq_ok.mp hvalue
  obtain ⟨h₁, hcontinues⟩ := h.after_passAs hcs ht.1 hk hkey
  have hreach := hcontinues.reaches hv
  obtain ⟨h₂, -⟩ := h₁.after_passAs hcs ht.2 hreach hvalue
  have hkept : w₁.Proceeds k.toList w' := (h₁.proceeds hcs
    (Views.conserves_passAs value h₁.balanced fun x hx => h₁.reachable (hreach x hx))
    (Views.advances_passAs hcs.covers ht.2 e.2) hvalue).mono fun _ => List.mem_append_left _
  have horigin := h.keyMade hcs ht.1 hk hkey
  refine ⟨⟨⟨w, w₁, .refl h.regular others, hkey, hkept⟩,
    ⟨w₁, w', hcontinues.proceeds, hvalue, .refl h₂.regular _⟩, horigin.later hkept⟩,
    fun x hx hsome => ?_⟩
  rcases horigin with rfl | ⟨b, rfl, hmade⟩
  · exact hsome
  · cases hsome
    exact absurd rfl (hmade.ne h.balanced (.of_mem hx))

omit hcs in
/-- Keys that have been passed on are as different as they were, and new ones differ from all
others. -/
theorem sameKey_made {k l k' l' : Ref} (hk : w.Reaches others k) (hl : w.Reaches others l)
    (hmadeKey : KeyMade w w' k k') (hmadeOther : KeyMade w w' l l') (hsince : Since w others w')
    (hold : ∀ x, k' = some x → l' = some x → w.heap.Reachable others x)
    (hne : w.sameKey k l = false) : w'.sameKey k' l' = false := by
  rcases hmadeOther with rfl | ⟨b, rfl, hmade⟩
  · rcases hmadeKey with rfl | ⟨b, rfl, hmade⟩
    · rw [hsince.sameKey h.balanced h.among hk hl, hne]
    · refine (hmade.sameKey fun hsame => ?_).1
      exact hmade.ne h.balanced (h.reachable (hl b hsame)) rfl
  · refine (hmade.sameKey fun hsame => ?_).2
    exact hmade.ne h.balanced (h.reachable (hold b hsame rfl)) rfl

/-- Entries have been converted one after another, and their keys are different. -/
theorem made_entries {entries pairs : List (Ref × Ref)}
    (ht : (RefType.map key value).Within (· ∈ cs)) (ha : w.heap.Reachable others a)
    (hcontent : w.payload? a = some (.map entries))
    (hrun : Run.mapOwned Run.entryReferences
      (Run.decodeEntry (Run.decodeRef key) (Run.decodeRef value)) entries w = (.ok pairs, w')) :
    Ready P cs others (pairs.flatMap Run.entryReferences ++ held) w' ∧ w.Continues cs others w' ∧
      List.Forall₂ (fun e e' => EntryMade w others key value e e' w') entries pairs ∧
      pairs.Pairwise fun e d => w'.sameKey e.1 d.1 = false := by
  have hreach : ∀ e ∈ entries, w.Reaches others e.1 ∧ w.Reaches others e.2 :=
    fun e he => Reaches.entry ha hcontent he
  have hmade : ∀ e ∈ entries, ∀ w₁ held₁ e' w₂, Ready P cs others held₁ w₁ →
      w.Continues cs others w₁ →
      Run.decodeEntry (Run.decodeRef key) (Run.decodeRef value) e w₁ = (.ok e', w₂) →
      EntryMade w others key value e e' w₂ ∧
        ∀ e₀ : Ref × Ref, (∀ x ∈ Run.entryReferences e₀, x ∈ held₁) →
          ∀ x, e₀.1 = some x → e'.1 = some x → w.heap.Reachable others x := by
    intro e he w₁ held₁ e' w₂ h₁ hcontinues hentry
    obtain ⟨hk, hv⟩ := hreach e he
    obtain ⟨hmadeEntry, hapart⟩ :=
      h₁.made_entry hcs ht (hcontinues.reaches hk) (hcontinues.reaches hv) hentry
    refine ⟨hmadeEntry.earlier hcontinues.proceeds, fun e₀ he₀ x hx hx' => hk x (hapart x ?_ hx')⟩
    exact he₀ x (by simp [hx])
  obtain ⟨h', hcontinues, -, hall, hapart, -⟩ := Run.mapOwned_made
    (R := fun w' e e' => EntryMade w others key value e e' w')
    (S := fun e d => ∀ x, e.1 = some x → d.1 = some x → w.heap.Reachable others x) hcs
    (advances_entry hcs.covers ht) (fun hproceeds hmade => hmade.later hproceeds) h
    (conserves_entry ha hcontent) hmade hrun
  have hdifferent : pairs.Pairwise fun e d =>
      (∀ x, e.1 = some x → d.1 = some x → w.heap.Reachable others x) →
        w'.sameKey e.1 d.1 = false := by
    refine pairwise_of_forall₂ hall ((h.made a ha).keys entries hcontent) ?_
    intro e he d hd e' d' hmadeKey hmadeOther hne hold
    exact h.sameKey_made (hreach e he).1 (hreach d hd).1 hmadeKey.origin hmadeOther.origin
      hcontinues.proceeds.since hold hne
  exact ⟨h', hcontinues, hall, (hdifferent.and hapart).imp fun hboth => hboth.1 hboth.2⟩

/-- A new map of what has been made of the entries. -/
theorem rebuilt_map {entries : List (Ref × Ref)} (ht : (RefType.map key value).Within (· ∈ cs))
    (ha : w.heap.Reachable others a) (hcontent : w.payload? a = some (.map entries))
    (hrun : Run.rebuildMap (Run.decodeRef key) (Run.decodeRef value) a w = (.ok b, w')) :
    w.Rebuilt others (.map key value) (entries.flatMap fun e => [(key, e.1), (value, e.2)]) b w' ∧
      Ready P cs others (b :: held) w' ∧ w.Continues cs others w' := by
  rw [Run.rebuildMap, run_get_bind, Dict.entries_of_payload hcontent] at hrun
  obtain ⟨pairs, w₁, hloop, hrest⟩ := run_bind_eq_ok.mp hrun
  obtain ⟨h₁, hcontinues₁, hall, hdistinct⟩ := h.made_entries hcs ht ha hcontent hloop
  obtain ⟨hfresh, h₂, hcontinues₂⟩ := collected hcs h₁ h.among hrest
  obtain ⟨collected, w₂, hcollect, hcreate⟩ := run_bind_eq_ok.mp hrest
  have hlist : Dict.ofList pairs w₁ = (.ok (some b), w') :=
    (run_bind_of_ok hcollect).trans (run_bind_of_ok hcreate)
  obtain ⟨id, hid, hrenews⟩ := Dict.renews_ofList h₁.balanced hlist
  cases hid
  rw [Loading.foldl_insertEntry hdistinct] at hrenews
  have hproceeds := hrenews.proceeds hcontinues₂.proceeds.later
  refine ⟨⟨hfresh.earlier hcontinues₁.proceeds, hrenews.made.cls, _, .map hrenews.made.content, ?_⟩,
    h₂, hcontinues₁.trans hcontinues₂⟩
  refine Views.forall₂_entryParts (forall₂_imp_mem hall fun e e' _ he' hmade =>
    hmade.later (hproceeds.mono fun x hx => ?_))
  exact List.mem_flatMap.mpr ⟨e', he', hx⟩

/-- A container that does not pass is renewed part by part. -/
theorem rebuilt_as (ht : t.Within (· ∈ cs)) (ha : w.heap.Reachable others a)
    (hparts : w.Parts t a parts) (hrun : Run.rebuildAs t a w = (.ok b, w')) :
    w.Rebuilt others t parts b w' ∧ Ready P cs others (b :: held) w' ∧
      w.Continues cs others w' := by
  cases hparts with
  | array content => exact h.rebuilt_array hcs ht ha content hrun
  | map content => exact h.rebuilt_map hcs ht ha content hrun

end Ready

end World

end ObjectRuntime
