import ObjectRuntime.Proofs.Container.Advancing
import ObjectRuntime.Proofs.Container.Renewal
import ObjectRuntime.Proofs.Reflection.Decoding
set_option autoImplicit false

/-!
# Checks that last

A check against a static type looks at what is below a reference and at the classes of the type.  So
a reference that has passed goes on passing while others may do what they like, and a container that
is made or changed passes if each of its parts does.
-/

namespace ObjectRuntime

open Heap (Intact)
open World (Balanced Since)
open TypeTable (Later)

variable {κ α : Type} {P : κ → Prop} {w w' w'' : World κ} {others held keeps : List ObjId}
  {id : ObjId} {r : Ref} {t elem key value : RefType} {elems : List Ref}
  {entries : List (Ref × Ref)}

namespace World

/-! ## Checks of containers -/

/-- The elements of an array that passes pass. -/
theorem elements_checked (h : w.mismatch? (.array elem) r = none) :
    ∀ e ∈ w.elements r, w.mismatch? elem e = none := by
  cases r with
  | none => exact fun e he => nomatch he
  | some a =>
      obtain ⟨elems, hcontent⟩ := array_of_checked h
      simp only [mismatch?, hcontent, Option.map_eq_none_iff, firstMismatch_eq_none] at h
      rwa [Arr.elements_of_payload hcontent]

/-- The entries of a map that passes pass. -/
theorem entries_checked (h : w.mismatch? (.map key value) r = none) :
    ∀ e ∈ w.entries r, w.mismatch? key e.1 = none ∧ w.mismatch? value e.2 = none := by
  cases r with
  | none => exact fun e he => nomatch he
  | some a =>
      obtain ⟨entries, hcontent⟩ := map_of_checked h
      rw [Dict.entries_of_payload hcontent]
      exact (mismatch?_map_eq_none hcontent).mp h

theorem isArray_of_checked (h : w.mismatch? (.array elem) r = none) : w.IsArray r := by
  rintro a rfl
  exact array_of_checked h

theorem isMap_of_checked (h : w.mismatch? (.map key value) r = none) : w.IsMap r := by
  rintro a rfl
  exact map_of_checked h

/-- An array passes if its elements do. -/
theorem array_checked (hcontent : w.payload? id = some (.array elems))
    (helems : ∀ e ∈ elems, w.mismatch? elem e = none) :
    w.mismatch? (.array elem) (some id) = none := by
  simp only [mismatch?, hcontent, Option.map_eq_none_iff, firstMismatch_eq_none]
  exact helems

/-! ## What is left as it was -/

/-- Whatever is below a reference is as it was, so the reference passes as it did. -/
theorem mismatch?_of_intact (halive : ∀ x, w.heap.Reachable held x → ∃ o, w.heap.get? x = some o)
    (hi : Intact held w.heap w'.heap) (hlater : Later w.types w'.types)
    (hr : ∀ a, r = some a → w.heap.Reachable held a) (h : w.mismatch? t r = none) :
    w'.mismatch? t r = none := by
  have hcontents : ∀ {a content}, w.heap.Reachable held a → w.payload? a = some content →
      w'.payload? a = some content := by
    intro a content ha hcontent
    obtain ⟨o, ho, rfl⟩ := Option.map_eq_some_iff.mp hcontent
    obtain ⟨n, hn⟩ := hi a o ha ho
    simp only [World.payload?, hn, Option.map_some]
  induction t generalizing r with
  | named name cls =>
      cases r with
      | none => exact mismatch?_none w' _
      | some a =>
          have hinstance := isInstance_of_named h
          obtain ⟨o, ho⟩ := halive a (hr a rfl)
          obtain ⟨n, hn⟩ := hi a o (hr a rfl) ho
          have htype : w'.typeIndex a = w.typeIndex a := by simp [World.typeIndex, ho, hn]
          have hlasts : w'.isInstance a cls = true := by
            unfold World.isInstance at hinstance ⊢
            cases hfirst : w.types.classIndex? cls with
            | none => simp [hfirst] at hinstance
            | some first =>
                rw [hfirst] at hinstance
                rw [hlater.classIndex? hfirst, htype]
                exact hlater.isInstance hinstance
          simp [mismatch?, hlasts]
  | array elem ih =>
      cases r with
      | none => exact mismatch?_none w' _
      | some a =>
          obtain ⟨elems, hcontent⟩ := array_of_checked h
          have helems := elements_checked h
          rw [Arr.elements_of_payload hcontent] at helems
          refine array_checked (hcontents (hr a rfl) hcontent) fun e he => ih (fun x hx => ?_)
            (helems e he)
          exact Run.reachable_of_payload (hr a rfl) hcontent
            (List.reduceOption_mem_iff.mpr (hx ▸ he))
  | map key value ihKey ihValue =>
      cases r with
      | none => exact mismatch?_none w' _
      | some a =>
          obtain ⟨entries, hcontent⟩ := map_of_checked h
          have hentries := entries_checked h
          rw [mismatch?_map_eq_none (hcontents (hr a rfl) hcontent)]
          rw [Dict.entries_of_payload hcontent] at hentries
          intro e he
          have hbelow : ∀ x, e.1 = some x ∨ e.2 = some x → w.heap.Reachable held x := by
            intro x hx
            refine Run.reachable_of_payload (hr a rfl) hcontent (List.mem_flatMap.mpr ⟨e, he, ?_⟩)
            rcases hx with hx | hx <;> simp [hx]
          exact ⟨ihKey (fun x hx => hbelow x (.inl hx)) (hentries e he).1,
            ihValue (fun x hx => hbelow x (.inr hx)) (hentries e he).2⟩

/-- What may have happened meanwhile, as others see it, and to the types. -/
structure Proceeds (w : World κ) (others : List ObjId) (w' : World κ) : Prop where
  since : Since w others w'
  later : Later w.types w'.types

namespace Proceeds

theorem refl (hregular : w.types.Regular) (others : List ObjId) : w.Proceeds others w :=
  ⟨.refl w others, .refl hregular⟩

theorem trans (h : w.Proceeds others w') (h' : w'.Proceeds others w'') : w.Proceeds others w'' :=
  ⟨h.since.trans h'.since, h.later.trans h'.later⟩

theorem mono (h : w.Proceeds others w') (hsub : ∀ x ∈ held, x ∈ others) : w.Proceeds held w' :=
  ⟨h.since.mono hsub, h.later⟩

theorem of_append (h : w.Proceeds (held ++ others) w') : w.Proceeds others w' :=
  ⟨h.since.of_append, h.later⟩

/-- A reference that others hold passes as it did. -/
theorem checked (h : w.Proceeds others w') (hb : w.Balanced P held)
    (hsub : ∀ x ∈ others, x ∈ held) (hr : ∀ a, r = some a → w.heap.Reachable others a)
    (hcheck : w.mismatch? t r = none) : w'.mismatch? t r = none :=
  mismatch?_of_intact (fun _ hx => hb.alive (hx.mono hsub)) h.since.intact h.later hr hcheck

/-- So does one that is among the references held. -/
theorem checked_of_mem (h : w.Proceeds others w') (hb : w.Balanced P held)
    (hsub : ∀ x ∈ others, x ∈ held) (hr : ∀ a, r = some a → a ∈ others)
    (hcheck : w.mismatch? t r = none) : w'.mismatch? t r = none :=
  h.checked hb hsub (fun a ha => .of_mem (hr a ha)) hcheck

end Proceeds

/-! ## What is made or changed -/

namespace Remakes

variable {payload : Payload κ}

/-- The parts of a new content pass as they did before. -/
theorem part_checked (h : w.Remakes P others id payload w') (hb : w.Balanced P held)
    (hheld : ∀ x ∈ payload.references, w.heap.Reachable held x) (hlater : Later w.types w'.types)
    (hr : ∀ a, r = some a → a ∈ payload.references) (hcheck : w.mismatch? t r = none) :
    w'.mismatch? t r = none :=
  mismatch?_of_intact (fun _ hx => hb.alive (hx.through hheld)) h.intact hlater
    (fun a ha => .of_mem (hr a ha)) hcheck

theorem array_checked (h : w.Remakes P others id (.array elems) w') (hb : w.Balanced P held)
    (hheld : ∀ x ∈ elems.reduceOption, w.heap.Reachable held x) (hlater : Later w.types w'.types)
    (helems : ∀ e ∈ elems, w.mismatch? elem e = none) :
    w'.mismatch? (.array elem) (some id) = none := by
  refine World.array_checked h.content fun e he => h.part_checked hb hheld hlater ?_ (helems e he)
  rintro a rfl
  exact List.reduceOption_mem_iff.mpr he

theorem map_checked (h : w.Remakes P others id (.map entries) w') (hb : w.Balanced P held)
    (hheld : ∀ x ∈ entries.flatMap Run.entryReferences, w.heap.Reachable held x)
    (hlater : Later w.types w'.types)
    (hentries : ∀ e ∈ entries, w.mismatch? key e.1 = none ∧ w.mismatch? value e.2 = none) :
    w'.mismatch? (.map key value) (some id) = none := by
  rw [mismatch?_map_eq_none h.content]
  intro e he
  have hmem : ∀ a, e.1 = some a ∨ e.2 = some a → a ∈ entries.flatMap Run.entryReferences := by
    intro a ha
    refine List.mem_flatMap.mpr ⟨e, he, ?_⟩
    rcases ha with ha | ha <;> simp [ha]
  exact ⟨h.part_checked hb hheld hlater (fun a ha => hmem a (.inl ha)) (hentries e he).1,
    h.part_checked hb hheld hlater (fun a ha => hmem a (.inr ha)) (hentries e he).2⟩

end Remakes

end World

open World (Proceeds)

namespace Run

/-- An operation that conserves references and only looks classes up: what has happened when it has a
result. -/
theorem Conserves.proceeds {gives : α → List ObjId} {x : Run κ α} {a : α}
    (h : Conserves P w others gives keeps x) (hadvances : Advances ObjectClass.Rightful x)
    (hregular : w.types.Regular) (hrun : x w = (.ok a, w')) :
    w.Proceeds others w' ∧ w'.Balanced P (gives a ++ others) := by
  obtain ⟨hsince, hb⟩ := h.ok a w' hrun
  have hadvanced := hadvances w
  rw [hrun] at hadvanced
  exact ⟨⟨hsince, hadvanced.types.later hregular⟩, hb⟩

/-- What has happened when it has failed. -/
theorem Conserves.proceeds_error {gives : α → List ObjId} {x : Run κ α} {fault : Fault}
    (h : Conserves P w others gives keeps x) (hadvances : Advances ObjectClass.Rightful x)
    (hregular : w.types.Regular) (hrun : x w = (.error fault, w')) :
    w.Proceeds others w' ∧ w'.Balanced P (keeps ++ others) := by
  obtain ⟨hsince, hb⟩ := h.error fault w' hrun
  have hadvanced := hadvances w
  rw [hrun] at hadvanced
  exact ⟨⟨hsince, hadvanced.types.later hregular⟩, hb⟩

/-- The built-in classes and the root claim only what they may. -/
theorem covers_rightful : ObjectClass.Covers ObjectClass.Rightful :=
  ⟨fun _ hc => ObjectClass.rightful_of_mem_builtins hc, trivial⟩

variable {c : ObjectClass} {payload : Payload κ}

/-- A new object is of its class. -/
theorem checked_create (name : String) (hrun : create c payload w = (.ok id, w')) :
    w'.mismatch? (.named name c) (some id) = none := by
  have hinstance := World.isInstance_of_ofClass (isFresh_of_create hrun).objectAt.cls
  simp only [World.mismatch?, hinstance, if_true]

/-- The caller alone refers to the object, which has the content. -/
theorem remakes_unique (hb : w.Balanced P (r.toList ++ others)) (hholds : w.Holds r payload)
    (hsuits : Suits P c payload) (hrun : unique c payload r w = (.ok id, w')) :
    w.Remakes P others id payload w' ∧ w'.heap.count id = 1 := by
  obtain ⟨hsince, hb'⟩ := (conserves_unique hb hholds hsuits).ok id w' hrun
  obtain ⟨hone, hcontent⟩ := one_of_unique hb hholds hsuits hrun
  obtain ⟨h, hgrown, hgrown'⟩ := grown_of_unique hrun
  exact ⟨⟨hsince, hb', .of_common hgrown hgrown', hcontent⟩, hone⟩

end Run

/-! ## Arrays -/

namespace Arr

variable {item r' : Ref}

theorem remakes_makeUnique (hb : w.Balanced P (r.toList ++ others)) (harray : w.IsArray r)
    (hrun : makeUnique r w = (.ok id, w')) :
    w.Remakes P others id (.array (w.elements r)) w' ∧ w'.heap.count id = 1 :=
  Run.remakes_unique hb (holds_elements harray) rfl (makeUnique_eq r w ▸ hrun)

/-- The elements of an array that is held can be reached. -/
theorem reachable_elements (hr : ∀ a, r = some a → w.heap.Reachable held a) :
    ∀ x ∈ (w.elements r).reduceOption, w.heap.Reachable held x := by
  intro x hx
  have hmem := List.reduceOption_mem_iff.mp hx
  cases r with
  | none => cases hmem
  | some a => exact Run.reachable_element (hr a rfl) hmem rfl

/-- A new array passes if its elements do. -/
theorem checked_ofList (hregular : w.types.Regular)
    (hb : w.Balanced P (elems.flatMap Option.toList ++ others))
    (helems : ∀ e ∈ elems, w.mismatch? elem e = none) (hrun : ofList elems w = (.ok r', w')) :
    w'.mismatch? (.array elem) r' = none := by
  obtain ⟨⟨-, hlater⟩, -⟩ := (conserves_ofList hb).proceeds
    (advances_ofList Run.covers_rightful elems) hregular hrun
  obtain ⟨id, rfl, hmade⟩ := renews_ofList hb hrun
  rw [← Run.reduceOption_eq_flatMap] at hb
  exact hmade.remakes.array_checked hb (fun x hx => .of_mem (List.mem_append_left _ hx)) hlater
    helems

/-- An array that passes does so with one more element that passes. -/
theorem checked_push (hregular : w.types.Regular)
    (hb : w.Balanced P (r.toList ++ (item.toList ++ others)))
    (hr : w.mismatch? (.array elem) r = none) (hitem : w.mismatch? elem item = none)
    (hrun : push r item w = (.ok r', w')) : w'.mismatch? (.array elem) r' = none := by
  have harray := World.isArray_of_checked hr
  obtain ⟨⟨-, hlater⟩, -⟩ := (conserves_push hb harray).proceeds
    (advances_push Run.covers_rightful r item) hregular hrun
  obtain ⟨id, w₁, rfl, hmake, rfl⟩ := push_inv hb harray hrun
  obtain ⟨hmade, hone⟩ := remakes_makeUnique hb harray hmake
  have hreferences : (w.elements r ++ [item]).reduceOption =
      (w.elements r).reduceOption ++ item.toList := by
    rw [List.reduceOption_append]
    cases item <;> rfl
  have hchanged := hmade.rewrite (.array (w.elements r ++ [item])) item.toList [] hone rfl
    (hmade.balanced.allows_array hmade.content _) (by
      simp only [Payload.references, hreferences, List.append_nil]
      exact .rfl)
  refine hchanged.array_checked hb (fun x hx => ?_) hlater fun e he => ?_
  · rw [hreferences] at hx
    rcases List.mem_append.mp hx with hx | hx
    · refine reachable_elements (fun a ha => .of_mem ?_) x hx
      simp [ha]
    · exact .of_mem (List.mem_append_right _ (List.mem_append_left _ hx))
  · rcases List.mem_append.mp he with he | he
    · exact World.elements_checked hr e he
    · rw [List.mem_singleton.mp he]
      exact hitem

/-- An array that passes does so with an element in place of another. -/
theorem checked_set {index : Int} (hregular : w.types.Regular)
    (hb : w.Balanced P (r.toList ++ (item.toList ++ others)))
    (hr : w.mismatch? (.array elem) r = none) (hitem : w.mismatch? elem item = none)
    (hrun : set r index item w = (.ok r', w')) : w'.mismatch? (.array elem) r' = none := by
  have harray := World.isArray_of_checked hr
  obtain ⟨⟨-, hlater⟩, -⟩ := (conserves_set hb harray).proceeds
    (advances_set Run.covers_rightful r item index) hregular hrun
  obtain ⟨id, i, w₁, rfl, hi, hmake, rfl⟩ := set_inv hb harray hrun
  obtain ⟨hmade, hone⟩ := remakes_makeUnique hb harray hmake
  have hchanged := hmade.rewrite (.array ((w.elements r).set i item)) _ _ hone rfl
    (hmade.balanced.allows_array hmade.content _) (reduceOption_set_perm (position_eq_ok hi).1)
  refine hchanged.array_checked hb (fun x hx => ?_) hlater fun e he => ?_
  · have hmem := List.reduceOption_mem_iff.mp hx
    rcases List.mem_or_eq_of_mem_set hmem with hmem | hitem'
    · refine reachable_elements (fun a ha => .of_mem ?_) x (List.reduceOption_mem_iff.mpr hmem)
      simp [ha]
    · refine .of_mem ?_
      simp [← hitem']
  · rcases List.mem_or_eq_of_mem_set he with he | rfl
    · exact World.elements_checked hr e he
    · exact hitem

end Arr

/-! ## Maps -/

namespace Dict

variable {k v r' : Ref} {same : Ref → Ref → Bool}

theorem remakes_makeUnique (hb : w.Balanced P (r.toList ++ others)) (hmap : w.IsMap r)
    (hrun : makeUnique r w = (.ok id, w')) :
    w.Remakes P others id (.map (w.entries r)) w' ∧ w'.heap.count id = 1 :=
  Run.remakes_unique hb (holds_entries hmap) rfl (makeUnique_eq r w ▸ hrun)

/-- The entries of a map that is held can be reached. -/
theorem reachable_entries (hr : ∀ a, r = some a → w.heap.Reachable held a) :
    ∀ x ∈ (w.entries r).flatMap Run.entryReferences, w.heap.Reachable held x := by
  intro x hmem
  obtain ⟨e, he, hx⟩ := List.mem_flatMap.mp hmem
  obtain ⟨a, -, rfl, -⟩ := exists_of_entry he
  refine Run.reachable_entry (hr a rfl) he ?_
  rcases List.mem_append.mp hx with hx | hx
  · exact .inl (Option.mem_toList.mp hx)
  · exact .inr (Option.mem_toList.mp hx)

/-- What is true of the parts of all entries and of a new one is true after it has been put in. -/
theorem insertEntry_forall {A B : Ref → Prop} (hk : A k) (hv : B v) :
    ∀ {entries : List (Ref × Ref)}, (∀ e ∈ entries, A e.1 ∧ B e.2) →
      ∀ e ∈ insertEntry same k v entries, A e.1 ∧ B e.2
  | [], _ => by
      intro e he
      rw [List.mem_singleton.mp he]
      exact ⟨hk, hv⟩
  | (k', v') :: entries, hall => by
      obtain ⟨hhead, hrest⟩ := List.forall_mem_cons.mp hall
      rw [insertEntry]
      split
      · exact List.forall_mem_cons.mpr ⟨⟨hhead.1, hv⟩, hrest⟩
      · exact List.forall_mem_cons.mpr ⟨hhead, insertEntry_forall hk hv hrest⟩

/-- So it is of entries that have been collected. -/
theorem collected_forall {A B : Ref → Prop} :
    ∀ (pairs : List (Ref × Ref)) {entries : List (Ref × Ref)}, (∀ e ∈ pairs, A e.1 ∧ B e.2) →
      (∀ e ∈ entries, A e.1 ∧ B e.2) →
      ∀ e ∈ pairs.foldl (fun es e => insertEntry same e.1 e.2 es) entries, A e.1 ∧ B e.2
  | [], _, _, hentries => hentries
  | (k, v) :: pairs, _, hpairs, hentries => by
      obtain ⟨hhead, hrest⟩ := List.forall_mem_cons.mp hpairs
      exact collected_forall pairs hrest (insertEntry_forall hhead.1 hhead.2 hentries)

/-- A new map passes if its keys and values do. -/
theorem checked_ofList {pairs : List (Ref × Ref)} (hregular : w.types.Regular)
    (hb : w.Balanced P (pairs.flatMap Run.entryReferences ++ others))
    (hpairs : ∀ e ∈ pairs, w.mismatch? key e.1 = none ∧ w.mismatch? value e.2 = none)
    (hrun : ofList pairs w = (.ok r', w')) : w'.mismatch? (.map key value) r' = none := by
  obtain ⟨⟨-, hlater⟩, -⟩ := (conserves_ofList hb).proceeds
    (advances_ofList Run.covers_rightful pairs) hregular hrun
  obtain ⟨id, rfl, hmade⟩ := renews_ofList hb hrun
  refine hmade.remakes.map_checked hb (fun x hx => .of_mem (List.mem_append_left _ ?_)) hlater
    (collected_forall (A := (w.mismatch? key · = none)) (B := (w.mismatch? value · = none)) pairs
      hpairs (List.forall_mem_nil _))
  have hcount := Run.count_collected_le w.sameKey x pairs []
  have hpos := List.count_pos_iff.mpr hx
  simp only [List.flatMap_nil, List.count_nil, Nat.zero_add] at hcount
  exact List.count_pos_iff.mp (Nat.lt_of_lt_of_le hpos hcount)

/-- A map that passes does so with a value that passes under a key that passes. -/
theorem checked_insert (hregular : w.types.Regular)
    (hb : w.Balanced P (r.toList ++ ((k.toList ++ v.toList) ++ others)))
    (hr : w.mismatch? (.map key value) r = none) (hk : w.mismatch? key k = none)
    (hv : w.mismatch? value v = none) (hrun : insert r k v w = (.ok r', w')) :
    w'.mismatch? (.map key value) r' = none := by
  have hmap := World.isMap_of_checked hr
  obtain ⟨⟨-, hlater⟩, -⟩ := (conserves_insert hb hmap).proceeds
    (advances_insert Run.covers_rightful r k v) hregular hrun
  obtain ⟨id, w₁, w₂, rfl, hask, hheap, hmake, rfl⟩ := insert_inv hb hmap hrun
  have hb₁ := (quiet_askInsert k).balanced hb
  have hsince := (quiet_askInsert k).since w others
  rw [hask] at hb₁ hsince
  obtain ⟨hmade, hone⟩ := remakes_makeUnique hb₁ (isMap_of_heap hmap hheap) hmake
  rw [entries_of_heap hheap] at hmade
  have hchanged := (hmade.rewrite (.map (insertEntry w₂.sameKey k v (w.entries r))) _ _ hone rfl
    (hmade.balanced.allows_map hmade.content _)
    (insertEntry_perm w₂.sameKey k v (w.entries r))).after hsince (hheap ▸ .refl _)
  refine hchanged.map_checked hb (fun x hx => ?_) hlater
    (insertEntry_forall (A := (w.mismatch? key · = none)) (B := (w.mismatch? value · = none)) hk hv
      (World.entries_checked hr))
  have hcount := Run.count_insertEntry_le w₂.sameKey k v x (w.entries r)
  have hpos := List.count_pos_iff.mpr hx
  have hmem : x ∈ (w.entries r).flatMap Run.entryReferences ++ Run.entryReferences (k, v) := by
    rw [← List.count_pos_iff, List.count_append]
    omega
  rcases List.mem_append.mp hmem with hmem | hmem
  · refine reachable_entries (fun a ha => .of_mem ?_) x hmem
    simp [ha]
  · exact .of_mem (List.mem_append_right _ (List.mem_append_left _ hmem))

/-- A map that passes does so without an entry. -/
theorem checked_remove {found : Bool} (hregular : w.types.Regular)
    (hb : w.Balanced P (r.toList ++ others)) (hkey : ∀ x, k = some x → w.heap.Reachable others x)
    (hr : w.mismatch? (.map key value) r = none)
    (hrun : remove r k w = (.ok (r', found), w')) :
    w'.mismatch? (.map key value) r' = none := by
  have hmap := World.isMap_of_checked hr
  obtain ⟨⟨-, hlater⟩, -⟩ := (conserves_remove hb hmap hkey).proceeds
    (advances_remove Run.covers_rightful r k) hregular hrun
  obtain ⟨w₁, hask, hheap, hfound⟩ := remove_inv hb hmap hrun
  have hb₁ := (quiet_askLookup r k).balanced hb
  have hsince := (quiet_askLookup r k).since w
  rw [hask] at hb₁ hsince
  cases hfind : (w.entries r).find? fun e => w₁.sameKey e.1 k with
  | none =>
      rw [hfind] at hfound
      obtain ⟨rfl, -, rfl⟩ := hfound
      have hproceeds : w.Proceeds (r'.toList ++ others) w' := ⟨hsince _, hlater⟩
      exact hproceeds.checked_of_mem hb (fun _ hx => hx) (fun a ha => by simp [ha]) hr
  | some e =>
      rw [hfind] at hfound
      obtain ⟨-, id, w₂, rfl, hmake, rfl⟩ := hfound
      have hfind₂ := find?_of_makeUnique hb₁ (isMap_of_heap hmap hheap)
        (fun x hx => (hsince others).reachable (hkey x hx)) hmake
      rw [entries_of_heap hheap, hfind] at hfind₂
      obtain ⟨hmade, hone⟩ := remakes_makeUnique hb₁ (isMap_of_heap hmap hheap) hmake
      rw [entries_of_heap hheap] at hmade
      have hchanged := (hmade.rewrite (.map ((w.entries r).eraseP fun e => w₂.sameKey e.1 k)) []
        _ hone rfl (hmade.balanced.allows_map hmade.content _)
        ((eraseP_perm hfind₂).trans (.of_eq (List.append_nil _).symm))).after (hsince others)
        (hheap ▸ .refl _)
      refine hchanged.map_checked hb (fun x hx => ?_) hlater fun e he =>
        World.entries_checked hr e (List.mem_of_mem_eraseP he)
      obtain ⟨e', he', hx⟩ := List.mem_flatMap.mp hx
      refine reachable_entries (fun a ha => .of_mem ?_) x
        (List.mem_flatMap.mpr ⟨e', List.mem_of_mem_eraseP he', hx⟩)
      simp [ha]

end Dict

end ObjectRuntime
