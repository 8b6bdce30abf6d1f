import ObjectRuntime.Proofs.Container.Checked
set_option autoImplicit false

/-!
# Conversions give what they promise

A conversion to a static type of references, if it succeeds, gives a reference that passes the check
against the type: an object of the class, a container that has passed as it is, or a new one whose
parts have been converted one by one.
-/

namespace ObjectRuntime

open World (Balanced Proceeds Since)

namespace Run

variable {κ α β : Type} {P : κ → Prop} {w w' w₁ : World κ} {others held ids : List ObjId}
  {id : ObjId} {c : ObjectClass} {r : Ref} {v : Value} {t elem key value : RefType}

/-! ## Operations that succeed -/

theorem attempt_eq_ok {x : Run κ α} {a : α} :
    attempt x w = (.ok (.ok a), w') ↔ x w = (.ok a, w') := by
  simp only [attempt]
  rcases x w with ⟨(cause | cause) | b, w₁⟩
  · constructor <;> intro h <;> cases h
  · constructor <;> intro h <;> cases h
  · constructor <;> intro h <;> cases h <;> rfl

theorem releasing_eq_ok {x : Run κ α} {a : α} (hrun : releasing ids x w = (.ok a, w')) :
    ∃ w₁, x w = (.ok a, w₁) ∧ w' = { w₁ with heap := ids.foldl Heap.release w₁.heap } := by
  simp only [releasing, andFinally] at hrun
  rcases hx : x w with ⟨fault | b, w₁⟩
  · rw [hx] at hrun
    cases hrun
  · rw [hx] at hrun
    cases hrun
    exact ⟨w₁, rfl, rfl⟩

/-- References are given up, and others find everything as it was. -/
theorem proceeds_releases (hregular : w.types.Regular) (hb : w.Balanced P (ids ++ held)) :
    w.Proceeds held { w with heap := ids.foldl Heap.release w.heap } ∧
      ({ w with heap := ids.foldl Heap.release w.heap } : World κ).Balanced P held := by
  have hb' : w.Balanced P (ids ++ ([] ++ held)) := hb
  obtain ⟨hsince, hdone⟩ := (conserves_releases [] [] hb').ok () _ rfl
  exact ⟨⟨hsince, .refl hregular⟩, hdone⟩

/-! ## Objects -/

theorem checked_memberOf (name : String) (hrun : memberOf c id w = (.ok r, w')) :
    w'.mismatch? (.named name c) r = none := by
  obtain ⟨_, w₁, -, hrest⟩ := run_bind_eq_ok.mp (releasingOnFault_eq_ok.mp hrun)
  rw [run_get_bind] at hrest
  split at hrest
  · rename_i hinstance
    cases hrest
    simp only [World.mismatch?, hinstance, if_true]
  · cases hrest

theorem checked_objectOf (name : String) (hrun : objectOf c v w = (.ok r, w')) :
    w'.mismatch? (.named name c) r = none := by
  cases v with
  | null =>
      cases hrun
      exact World.mismatch?_none _ _
  | object tag id =>
      obtain ⟨_, w₁, -, hrest⟩ := run_bind_eq_ok.mp hrun
      exact checked_memberOf name hrest
  | int | float | bool | text | bytes | dataType | device | handle | tensorHandle =>
      obtain ⟨found, w₁, -, hrest⟩ := run_bind_eq_ok.mp hrun
      cases found with
      | some id => exact checked_memberOf name hrest
      | none => cases hrest

/-! ## Parts -/

/-- What a conversion gives passes the check against the type, whoever holds the value. -/
def Produces (P : κ → Prop) (t : RefType) (convert : Value → Run κ Ref) : Prop :=
  ∀ {w : World κ} {others : List ObjId} {v : Value} {r : Ref} {w' : World κ}, w.types.Regular →
    w.Balanced P others → Borrowed w others v → convert v w = (.ok r, w') →
    w'.mismatch? t r = none

/-- A reference is converted as it travels. -/
theorem Produces.travelling {convert : Value → Run κ Ref} {r' : Ref}
    (hproduces : Produces P t convert) (hregular : w.types.Regular) (hb : w.Balanced P others)
    (hr : ∀ id, r = some id → w.heap.Reachable others id)
    (hrun : (do convert (← travel r false)) w = (.ok r', w')) : w'.mismatch? t r' = none := by
  obtain ⟨v, w₁, htravel, hrest⟩ := run_bind_eq_ok.mp hrun
  have htravels : Conserves P w others (fun _ => []) [] (travel r false) :=
    (quiet_travel r false).conserves [] hb
  obtain ⟨hproceeds, hb₁⟩ :=
    htravels.proceeds (advances_travel covers_rightful r false) hregular htravel
  refine hproduces hproceeds.later.regular hb₁ (fun id hid => ?_) hrest
  exact hproceeds.since.reachable (hr id (object?_travel htravel hid))

/-- Each result goes on having a property while the later ones are made, if the property only depends
on what the result owns. -/
theorem holds_mapOwned {owned : β → List ObjId} {f : α → Run κ β} {Q : World κ → β → Prop}
    (hlasts : ∀ {w w' : World κ} {b : β} {others : List ObjId}, w.Proceeds (owned b ++ others) w' →
      w.Balanced P (owned b ++ others) → Q w b → Q w' b)
    (hadvances : ∀ a, Advances ObjectClass.Rightful (f a)) :
    ∀ (as : List α) {w w' : World κ} {others : List ObjId} {bs : List β}, w.types.Regular →
      w.Balanced P others →
      (∀ a ∈ as, ∀ w₁ held, Since w others w₁ → w₁.Balanced P (held ++ others) →
        Conserves P w₁ (held ++ others) owned [] (f a)) →
      (∀ a ∈ as, ∀ w₁ held b w₂, w.Proceeds others w₁ → w₁.Balanced P (held ++ others) →
        f a w₁ = (.ok b, w₂) → Q w₂ b) →
      mapOwned owned f as w = (.ok bs, w') → ∀ b ∈ bs, Q w' b
  | [], _, _, _, _, _, _, _, _, hrun => by
      cases hrun
      exact List.forall_mem_nil _
  | a :: as, w, w', others, bs, hregular, hb, hconserves, hholds, hrun => by
      obtain ⟨b, w₁, hfirst, hrest⟩ := run_bind_eq_ok.mp hrun
      obtain ⟨bs', w₂, hlater, hdone⟩ := run_bind_eq_ok.mp hrest
      cases hdone
      have hlater := releasingOnFault_eq_ok.mp hlater
      obtain ⟨hproceeds, hb₁⟩ := (hconserves a List.mem_cons_self w [] (.refl w others) hb).proceeds
        (hadvances a) hregular hfirst
      have hconserves₁ : ∀ a' ∈ as, ∀ w₂ held, Since w₁ (owned b ++ others) w₂ →
          w₂.Balanced P (held ++ (owned b ++ others)) →
          Conserves P w₂ (held ++ (owned b ++ others)) owned [] (f a') := by
        intro a' ha' w₂ held hsince hb₂
        rw [← List.append_assoc] at hb₂ ⊢
        exact hconserves a' (List.mem_cons_of_mem a ha') w₂ _
          (hproceeds.since.trans hsince.of_append) hb₂
      have hholds₁ : ∀ a' ∈ as, ∀ w₂ held b' w₃, w₁.Proceeds (owned b ++ others) w₂ →
          w₂.Balanced P (held ++ (owned b ++ others)) → f a' w₂ = (.ok b', w₃) → Q w₃ b' := by
        intro a' ha' w₂ held b' w₃ hproceeds₂ hb₂
        rw [← List.append_assoc] at hb₂
        exact hholds a' (List.mem_cons_of_mem a ha') w₂ _ b' w₃
          (hproceeds.trans hproceeds₂.of_append) hb₂
      obtain ⟨hproceeds₂, -⟩ := (conserves_mapOwned as hb₁ hconserves₁).proceeds
        (advances_mapOwned hadvances as) hproceeds.later.regular hlater
      refine List.forall_mem_cons.mpr ⟨?_, holds_mapOwned hlasts hadvances as
        hproceeds.later.regular hb₁ hconserves₁ hholds₁ hlater⟩
      exact hlasts hproceeds₂ hb₁ (hholds a List.mem_cons_self w [] b w₁ (.refl hregular others) hb
        hfirst)

/-- A reference that passes goes on passing while its owner keeps it. -/
theorem checked_lasts (h : w.Proceeds (r.toList ++ others) w')
    (hb : w.Balanced P (r.toList ++ others)) (hcheck : w.mismatch? t r = none) :
    w'.mismatch? t r = none :=
  h.checked_of_mem hb (fun _ hx => hx) (fun a ha => by simp [ha]) hcheck

/-- The elements that are converted one by one pass. -/
theorem Produces.elements {convert : Value → Run κ Ref} {elems elems' : List Ref}
    (hproduces : Produces P t convert) (hconverts : Converts P convert)
    (hadvances : ∀ v, Advances ObjectClass.Rightful (convert v)) (hregular : w.types.Regular)
    (hb : w.Balanced P others)
    (helems : ∀ r ∈ elems, ∀ id, r = some id → w.heap.Reachable others id)
    (hrun : decodeElements convert elems w = (.ok elems', w')) :
    ∀ e ∈ elems', w'.mismatch? t e = none := by
  refine holds_mapOwned (Q := fun w e => w.mismatch? t e = none) checked_lasts
    (fun r => (advances_travel covers_rightful r false).bind hadvances) elems hregular hb
    (fun r hr w₁ held hsince hb₁ => ?_) (fun r hr w₁ held e w₂ hproceeds hb₁ hrun => ?_) hrun
  · refine hconverts.travelling hb₁ fun id hid => ?_
    exact (hsince.reachable (helems r hr id hid)).mono fun _ hx => List.mem_append_right _ hx
  · refine hproduces.travelling hproceeds.later.regular hb₁ (fun id hid => ?_) hrun
    exact (hproceeds.since.reachable (helems r hr id hid)).mono
      fun _ hx => List.mem_append_right _ hx

/-- Both parts of an entry that is converted pass. -/
theorem Produces.entry {convertKey convertValue : Value → Run κ Ref} {e e' : Ref × Ref}
    (hkeys : Produces P key convertKey) (hvalues : Produces P value convertValue)
    (hconvertKey : Converts P convertKey) (hconvertValue : Converts P convertValue)
    (hadvanceKey : ∀ v, Advances ObjectClass.Rightful (convertKey v))
    (hadvanceValue : ∀ v, Advances ObjectClass.Rightful (convertValue v))
    (hregular : w.types.Regular) (hb : w.Balanced P others)
    (he : ∀ id, e.1 = some id ∨ e.2 = some id → w.heap.Reachable others id)
    (hrun : decodeEntry convertKey convertValue e w = (.ok e', w')) :
    w'.mismatch? key e'.1 = none ∧ w'.mismatch? value e'.2 = none := by
  have hregroup : decodeEntry convertKey convertValue e = (do
      let k ← (do convertKey (← travel e.1 false))
      let v ← releasingOnFault k.toList (do convertValue (← travel e.2 false))
      return (k, v) : Run κ (Ref × Ref)) := by
    rw [decodeEntry, bind_assoc]
  rw [hregroup] at hrun
  obtain ⟨k, w₁, hkey, hrest⟩ := run_bind_eq_ok.mp hrun
  obtain ⟨v, w₂, hvalue, hdone⟩ := run_bind_eq_ok.mp hrest
  cases hdone
  have hvalue := releasingOnFault_eq_ok.mp hvalue
  obtain ⟨hproceeds, hb₁⟩ := (hconvertKey.travelling hb fun id hid => he id (.inl hid)).proceeds
    ((advances_travel covers_rightful _ _).bind hadvanceKey) hregular hkey
  have hreach : ∀ id, e.2 = some id → w₁.heap.Reachable (k.toList ++ others) id := fun id hid =>
    (hproceeds.since.reachable (he id (.inr hid))).mono fun _ hx => List.mem_append_right _ hx
  obtain ⟨hproceeds₂, -⟩ := (hconvertValue.travelling hb₁ hreach).proceeds
    ((advances_travel covers_rightful _ _).bind hadvanceValue) hproceeds.later.regular hvalue
  refine ⟨checked_lasts hproceeds₂ hb₁ ?_, ?_⟩
  · exact hkeys.travelling hregular hb (fun id hid => he id (.inl hid)) hkey
  · exact hvalues.travelling hproceeds.later.regular hb₁ hreach hvalue

/-! ## Containers -/

/-- A new container takes the place of one that has not passed. -/
theorem checked_rebuilt {rebuild : Run κ ObjId} {failure : Error → Run κ Ref}
    (hregular : w.types.Regular) (hb : w.Balanced P ([id] ++ others))
    (hconserves : ∀ {w : World κ} {others : List ObjId}, w.Balanced P others →
      w.heap.Reachable others id → Conserves P w others (fun fresh => [fresh]) [] rebuild)
    (hadvances : Advances ObjectClass.Rightful rebuild)
    (hchecked : ∀ {w w' : World κ} {others : List ObjId} {fresh : ObjId}, w.types.Regular →
      w.Balanced P others → w.heap.Reachable others id → rebuild w = (.ok fresh, w') →
      w'.mismatch? t (some fresh) = none)
    (hfailure : ∀ cause (w : World κ), ∃ fault w', failure cause w = (.error fault, w'))
    (hrun : (do
      match ← releasing [id] (attempt rebuild) with
      | .ok fresh => return some fresh
      | .error cause => failure cause) w = (.ok r, w')) : w'.mismatch? t r = none := by
  obtain ⟨answer, w₂, hrebuild, hdone⟩ := run_bind_eq_ok.mp hrun
  cases answer with
  | error cause =>
      obtain ⟨fault, w₃, hfault⟩ := hfailure cause w₂
      dsimp only at hdone
      rw [hfault] at hdone
      cases hdone
  | ok fresh =>
      cases hdone
      obtain ⟨w₁, hattempt, rfl⟩ := releasing_eq_ok hrebuild
      have hmade := attempt_eq_ok.mp hattempt
      have hid : w.heap.Reachable ([id] ++ others) id := .of_mem List.mem_cons_self
      obtain ⟨hproceeds₁, hb₁⟩ := (hconserves hb hid).proceeds hadvances hregular hmade
      have hheld : w₁.Balanced P ([id] ++ ((some fresh : Ref).toList ++ others)) :=
        hb₁.perm (List.perm_append_comm_assoc _ _ _)
      obtain ⟨hproceeds₂, -⟩ := proceeds_releases hproceeds₁.later.regular hheld
      exact hproceeds₂.checked_of_mem hheld (fun _ hx => List.mem_append_right _ hx)
        (fun a ha => by simp [ha]) (hchecked hregular hb hid hmade)

/-- A container that has passed, or a new one that passes. -/
theorem checked_decodeContainer {rebuild : ObjId → Run κ ObjId}
    (ht : t.Within ObjectClass.Rightful) (hregular : w.types.Regular) (hb : w.Balanced P others)
    (hv : Borrowed w others v)
    (hconserves : ∀ id {w : World κ} {others : List ObjId}, w.Balanced P others →
      w.heap.Reachable others id → Conserves P w others (fun fresh => [fresh]) [] (rebuild id))
    (hadvances : ∀ id, Advances ObjectClass.Rightful (rebuild id))
    (hchecked : ∀ id {w w' : World κ} {others : List ObjId} {fresh : ObjId}, w.types.Regular →
      w.Balanced P others → w.heap.Reachable others id → rebuild id w = (.ok fresh, w') →
      w'.mismatch? t (some fresh) = none)
    (hrun : decodeContainer t v rebuild w = (.ok r, w')) : w'.mismatch? t r = none := by
  obtain ⟨found, w₁, hobject, hrest⟩ := run_bind_eq_ok.mp hrun
  obtain ⟨hproceeds₁, hb₁⟩ := (conserves_objectOf hb hv).proceeds
    (advances_objectOf covers_rightful covers_rightful.root v) hregular hobject
  cases found with
  | none =>
      cases hrest
      exact World.mismatch?_none _ t
  | some id =>
      obtain ⟨_, w₂, htouch, hrest⟩ := run_bind_eq_ok.mp hrest
      have htouches : Conserves P w₁ others (fun _ => [id]) [] (releasingOnFault [id] (touch t.cls)) :=
        (quiet_touch t.cls).holding [id] hb₁
      obtain ⟨hproceeds₂, hb₂⟩ := htouches.proceeds ((advances_touch
        (ht.cls covers_rightful)).releasingOnFault [id]) hproceeds₁.later.regular htouch
      rw [run_get_bind] at hrest
      cases hinstance : w₂.isInstance id t.cls with
      | false =>
          simp only [hinstance, Bool.not_false, if_true] at hrest
          obtain ⟨_, _, -, hfail⟩ := run_bind_eq_ok.mp hrest
          cases hfail
      | true =>
          simp only [hinstance, Bool.not_true, Bool.false_eq_true, if_false] at hrest
          obtain ⟨_, w₃, hask, hrest⟩ := run_bind_eq_ok.mp hrest
          have hasks : Conserves P w₂ others (fun _ => [id]) []
              (releasingOnFault [id] (askType t (some id))) :=
            (quiet_askType t (some id)).holding [id] hb₂
          obtain ⟨hproceeds₃, hb₃⟩ := hasks.proceeds ((advances_askType covers_rightful ht
            (some id)).releasingOnFault [id]) hproceeds₂.later.regular hask
          rw [run_get_bind] at hrest
          cases hcheck : w₃.mismatch? t (some id) with
          | none =>
              simp only [hcheck] at hrest
              cases hrest
              exact hcheck
          | some m =>
              simp only [hcheck] at hrest
              exact checked_rebuilt hproceeds₃.later.regular hb₃ (hconserves id) (hadvances id)
                (hchecked id) (fun _ _ => ⟨_, _, rfl⟩) hrest

/-- A new array of converted elements passes. -/
theorem Produces.rebuildArray {convert : Value → Run κ Ref} {fresh : ObjId}
    (hproduces : Produces P elem convert) (hconverts : Converts P convert)
    (hadvances : ∀ v, Advances ObjectClass.Rightful (convert v)) (hregular : w.types.Regular)
    (hb : w.Balanced P others) (hid : w.heap.Reachable others id)
    (hrun : rebuildArray convert id w = (.ok fresh, w')) :
    w'.mismatch? (.array elem) (some fresh) = none := by
  rw [Run.rebuildArray, run_get_bind] at hrun
  obtain ⟨elems, w₁, hdecode, hcreate⟩ := run_bind_eq_ok.mp hrun
  have hreach : ∀ r ∈ w.elements (some id), ∀ x, r = some x → w.heap.Reachable others x :=
    fun r hr x hx => reachable_element hid hr hx
  obtain ⟨hproceeds, hb₁⟩ := (hconverts.elements hb hreach).proceeds (advances_mapOwned
    (fun r => (advances_travel covers_rightful r false).bind hadvances) _) hregular hdecode
  have helems := hproduces.elements hconverts hadvances hregular hb hreach hdecode
  have hlist : Arr.ofList elems w₁ = (.ok (some fresh), w') := run_map_of_ok hcreate
  exact Arr.checked_ofList hproceeds.later.regular hb₁ helems hlist

theorem advances_rebuildArray {convert : Value → Run κ Ref}
    (hadvances : ∀ v, Advances ObjectClass.Rightful (convert v)) (id : ObjId) :
    Advances ObjectClass.Rightful (rebuildArray convert id) := by
  refine advances_get fun w => (advances_mapOwned (fun r => ?_) _).bind fun elems =>
    advances_create (covers_rightful.builtins .array (by decide)) _
  exact (advances_travel covers_rightful r false).bind hadvances

theorem advances_decodeEntry {convertKey convertValue : Value → Run κ Ref}
    (hkey : ∀ v, Advances ObjectClass.Rightful (convertKey v))
    (hvalue : ∀ v, Advances ObjectClass.Rightful (convertValue v)) (e : Ref × Ref) :
    Advances ObjectClass.Rightful (decodeEntry convertKey convertValue e) := by
  refine (advances_travel covers_rightful e.1 false).bind fun v => (hkey v).bind fun k => ?_
  refine (Advances.releasingOnFault ?_ _).bind fun v => advances_pure _
  exact (advances_travel covers_rightful e.2 false).bind hvalue

/-- A new map of converted entries passes. -/
theorem Produces.rebuildMap {convertKey convertValue : Value → Run κ Ref} {fresh : ObjId}
    (hkeys : Produces P key convertKey) (hvalues : Produces P value convertValue)
    (hconvertKey : Converts P convertKey) (hconvertValue : Converts P convertValue)
    (hadvanceKey : ∀ v, Advances ObjectClass.Rightful (convertKey v))
    (hadvanceValue : ∀ v, Advances ObjectClass.Rightful (convertValue v))
    (hregular : w.types.Regular) (hb : w.Balanced P others) (hid : w.heap.Reachable others id)
    (hrun : rebuildMap convertKey convertValue id w = (.ok fresh, w')) :
    w'.mismatch? (.map key value) (some fresh) = none := by
  rw [Run.rebuildMap, run_get_bind] at hrun
  obtain ⟨pairs, w₁, hdecode, hrest⟩ := run_bind_eq_ok.mp hrun
  have hconserves : ∀ e ∈ w.entries (some id), ∀ w₁ held, Since w others w₁ →
      w₁.Balanced P (held ++ others) → Conserves P w₁ (held ++ others) entryReferences []
        (decodeEntry convertKey convertValue e) := by
    intro e he w₁ held hsince hb₁
    refine hconvertKey.entry hconvertValue hb₁ fun x hx => ?_
    exact (hsince.reachable (reachable_entry hid he hx)).mono
      fun _ hx => List.mem_append_right _ hx
  have hadvances := advances_decodeEntry hadvanceKey hadvanceValue
  obtain ⟨hproceeds, hb₁⟩ := (conserves_mapOwned _ hb hconserves).proceeds
    (advances_mapOwned hadvances _) hregular hdecode
  have hpairs : ∀ e ∈ pairs, w₁.mismatch? key e.1 = none ∧ w₁.mismatch? value e.2 = none := by
    refine holds_mapOwned (Q := fun w (e : Ref × Ref) => w.mismatch? key e.1 = none ∧
      w.mismatch? value e.2 = none) (fun {w w' e others} hproceeds hb he => ⟨?_, ?_⟩) hadvances _
      hregular hb hconserves (fun e he w₁ held e' w₂ hproceeds hb₁ hrun => ?_) hdecode
    · exact hproceeds.checked_of_mem hb (fun _ hx => hx)
        (fun a ha => by simp [entryReferences, ha]) he.1
    · exact hproceeds.checked_of_mem hb (fun _ hx => hx)
        (fun a ha => by simp [entryReferences, ha]) he.2
    · refine hkeys.entry hvalues hconvertKey hconvertValue hadvanceKey hadvanceValue
        hproceeds.later.regular hb₁ (fun x hx => ?_) hrun
      exact (hproceeds.since.reachable (reachable_entry hid he hx)).mono
        fun _ hx => List.mem_append_right _ hx
  obtain ⟨entries, w₂, hcollect, hcreate⟩ := run_bind_eq_ok.mp hrest
  have hlist : Dict.ofList pairs w₁ = (.ok (some fresh), w') :=
    (run_bind_of_ok hcollect).trans (run_bind_of_ok hcreate)
  exact Dict.checked_ofList hproceeds.later.regular hb₁ hpairs hlist

theorem advances_rebuildMap {convertKey convertValue : Value → Run κ Ref}
    (hkey : ∀ v, Advances ObjectClass.Rightful (convertKey v))
    (hvalue : ∀ v, Advances ObjectClass.Rightful (convertValue v)) (id : ObjId) :
    Advances ObjectClass.Rightful (rebuildMap convertKey convertValue id) := by
  refine advances_get fun w =>
    (advances_mapOwned (advances_decodeEntry hkey hvalue) _).bind fun pairs => ?_
  refine (advances_collectEntries covers_rightful pairs).bind fun entries => ?_
  exact advances_create (covers_rightful.builtins .map (by decide)) _

/-- A conversion to a static type gives a reference that passes the check against it. -/
theorem produces_decodeRef (ht : t.Within ObjectClass.Rightful) :
    Produces P t (decodeRef (κ := κ) t) := by
  induction t with
  | named name cls =>
      intro w others v r w' hregular hb hv hrun
      exact checked_objectOf name hrun
  | array elem ih =>
      intro w others v r w' hregular hb hv hrun
      have hconverts : Converts P (decodeRef (κ := κ) elem) := converts_decodeRef elem
      have hadvances := fun v => advances_decodeRef (κ := κ) covers_rightful (t := elem) ht v
      have hproduces : Produces P elem (decodeRef elem) := ih ht
      exact checked_decodeContainer ht hregular hb hv (fun id => hconverts.rebuildArray)
        (advances_rebuildArray hadvances)
        (fun id => hproduces.rebuildArray hconverts hadvances) hrun
  | map key value ihKey ihValue =>
      intro w others v r w' hregular hb hv hrun
      have hkey : Converts P (decodeRef (κ := κ) key) := converts_decodeRef key
      have hvalue : Converts P (decodeRef (κ := κ) value) := converts_decodeRef value
      have hadvanceKey := fun v => advances_decodeRef (κ := κ) covers_rightful (t := key) ht.1 v
      have hadvanceValue := fun v => advances_decodeRef (κ := κ) covers_rightful (t := value) ht.2 v
      have hkeys : Produces P key (decodeRef key) := ihKey ht.1
      have hvalues : Produces P value (decodeRef value) := ihValue ht.2
      exact checked_decodeContainer ht hregular hb hv (fun id => hkey.rebuildMap hvalue)
        (advances_rebuildMap hadvanceKey hadvanceValue)
        (fun id => hkeys.rebuildMap hvalues hkey hvalue hadvanceKey hadvanceValue) hrun

end Run

end ObjectRuntime
