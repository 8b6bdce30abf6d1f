import ObjectRuntime.Conversion
import ObjectRuntime.Proofs.Object.Conservation
import ObjectRuntime.Proofs.Reflection.Paths
set_option autoImplicit false

/-!
# Conversions conserve references

A conversion borrows the value that it converts and owns what it makes of it: the references in its
result are the caller's, and if it fails it has given up all that it had made.
-/

namespace ObjectRuntime

open World (Balanced Since)

namespace Run

variable {κ α β : Type} {P : κ → Prop} {w w' : World κ} {others mine keeps held : List ObjId}
  {id : ObjId} {c : ObjectClass}
  {r : Ref} {v : Value}

/-- A failure that is caught leaves what it kept. -/
theorem Conserves.attempt {gives : α → List ObjId} {x : Run κ α}
    (h : Conserves P w others gives keeps x) :
    Conserves P w others (fun answer => answer.toOption.elim keeps gives) keeps (attempt x) := by
  refine ⟨fun answer w' hrun => ?_, fun fault w' hrun => ?_⟩
  all_goals
    simp only [Run.attempt] at hrun
    rcases hx : x w with ⟨(cause | cause) | a, w₁⟩
  all_goals rw [hx] at hrun; cases hrun
  · exact h.error _ _ hx
  · exact h.ok _ _ hx
  · exact h.error _ _ hx

/-! ## Objects -/

/-- The object that a value carries can be reached from what others hold. -/
def Borrowed (w : World κ) (others : List ObjId) (v : Value) : Prop :=
  ∀ id, v.object? = some id → w.heap.Reachable others id

theorem Borrowed.since (hv : Borrowed w others v) (h : Since w others w') :
    Borrowed w' others v := fun id hid => h.reachable (hv id hid)

theorem Borrowed.append (hv : Borrowed w others v) : Borrowed w (held ++ others) v :=
  fun id hid => (hv id hid).mono fun _ hx => List.mem_append_right _ hx

theorem quiet_accepts (boxed cls : ObjectClass) : Quiet (accepts boxed cls : Run κ Bool) :=
  (quiet_touch boxed).bind fun _ => (quiet_touch cls).bind fun _ => quiet_get fun _ => quiet_pure _

theorem conserves_createAccepted (cls : ObjectClass) :
    ∀ (contents : List (ObjectClass × Payload κ)) {w : World κ}, w.Balanced P others →
      (∀ p ∈ contents, p.2.references = [] ∧ Suits P p.1 p.2) →
      Conserves P w others Option.toList [] (createAccepted cls contents)
  | [], _, hb, _ => conserves_pure hb
  | (boxed, payload) :: rest, w, hb, hplain => by
      refine (quiet_accepts boxed cls).then_conserves [] hb fun accepted w₁ _ _ _ hb₁ => ?_
      obtain ⟨⟨hreferences, hsuits⟩, hrest⟩ := List.forall_mem_cons.mp hplain
      cases accepted with
      | true =>
          refine (conserves_create [] ?_ hsuits).map fun id => rfl
          rw [hreferences]
          exact hb₁
      | false => exact conserves_createAccepted cls rest hb₁ hrest

theorem boxings_plain (v : Value) :
    ∀ p ∈ (World.boxings v : List (ObjectClass × Payload κ)),
      p.2.references = [] ∧ Suits P p.1 p.2 := by
  cases v with
  | null | bytes | dataType | device | handle | tensorHandle | object => exact fun _ hp => nomatch hp
  | int n => simp [World.boxings, Payload.references, Suits]
  | float x => simp [World.boxings, Payload.references, Suits]
  | bool b => simp [World.boxings, Payload.references, Suits]
  | text s => simp [World.boxings, Payload.references, Suits]

/-- What is passed on is the object itself. -/
theorem eq_of_memberOf (hrun : memberOf c id w = (.ok r, w')) : r = some id := by
  obtain ⟨_, w₁, -, hrun⟩ := run_bind_eq_ok.mp (releasingOnFault_eq_ok.mp hrun)
  obtain ⟨_, _, hget, hrun⟩ := run_bind_eq_ok.mp hrun
  cases hget
  split at hrun
  · cases hrun
    rfl
  · cases hrun

/-- An object of a class is passed on, any other is given up. -/
theorem conserves_memberOf (hb : w.Balanced P (id :: others)) :
    Conserves P w others Option.toList [] (memberOf c id) := by
  have hbody : Quiet (do
      let _ ← touch c
      let w ← get
      if w.isInstance id c then return some id
      else fail (.typeMismatch c.key (w.typeKey id)) : Run κ Ref) := by
    refine (quiet_touch c).bind fun _ => quiet_get fun w => ?_
    split
    · exact quiet_pure _
    · exact quiet_fail _
  refine (hbody.holding [id] hb).perm (fun r w' hrun => ?_) .rfl
  rw [eq_of_memberOf hrun]
  exact .rfl

/-- The object that a value stands for. -/
theorem conserves_objectOf (hb : w.Balanced P others) (hv : Borrowed w others v) :
    Conserves P w others Option.toList [] (objectOf c v) := by
  cases v with
  | null => exact conserves_pure hb
  | object tag id =>
      refine (conserves_retain [] [] hb (hv id rfl)).bind fun _ w₁ _ _ hb₁ => ?_
      exact conserves_memberOf hb₁
  | int | float | bool | text | bytes | dataType | device | handle | tensorHandle =>
      refine (conserves_createAccepted c _ hb (boxings_plain _)).bind fun found w₁ _ _ hb₁ => ?_
      cases found with
      | some id => exact conserves_memberOf hb₁
      | none => exact conserves_get (conserves_throw hb₁)

/-! ## Containers -/

/-- A reference travels as a value that carries it, or as the number in its box. -/
theorem object?_classifyRef {moved : Bool} (hv : (w.classifyRef r moved).object? = some id) :
    r = some id := by
  cases r with
  | none => cases hv
  | some a =>
      simp only [World.classifyRef, World.classify] at hv
      split_ifs at hv
      · exact hv
      · exact hv
      · exact hv
      all_goals
        cases hbox : w.boxed? a with
        | none =>
            rw [hbox] at hv
            exact hv
        | some v =>
            rw [hbox] at hv
            exact absurd hv (by simp [World.object?_of_boxed? hbox])

theorem object?_travel {moved : Bool} (hrun : travel r moved w = (.ok v, w'))
    (hv : v.object? = some id) : r = some id := by
  cases r with
  | none =>
      cases hrun
      exact object?_classifyRef hv
  | some a =>
      obtain ⟨_, w₁, -, hrun⟩ := run_bind_eq_ok.mp hrun
      cases hrun
      exact object?_classifyRef hv

/-- A conversion to a reference conserves references, whoever holds the value. -/
def Converts (P : κ → Prop) (convert : Value → Run κ Ref) : Prop :=
  ∀ {w : World κ} {others : List ObjId} {v : Value}, w.Balanced P others → Borrowed w others v →
    Conserves P w others Option.toList [] (convert v)

/-- A reference is converted as it travels. -/
theorem Converts.travelling {convert : Value → Run κ Ref} (hconvert : Converts P convert)
    (hb : w.Balanced P others) (hr : ∀ id, r = some id → w.heap.Reachable others id) :
    Conserves P w others Option.toList [] (do convert (← travel r false)) := by
  refine (quiet_travel r false).then_conserves [] hb fun v w₁ hrun _ hsince hb₁ => ?_
  exact hconvert hb₁ fun id hid => hsince.reachable (hr id (object?_travel hrun hid))

/-- Converting references one by one. -/
theorem Converts.elements {convert : Value → Run κ Ref} (hconvert : Converts P convert)
    {elems : List Ref} (hb : w.Balanced P others)
    (helems : ∀ r ∈ elems, ∀ id, r = some id → w.heap.Reachable others id) :
    Conserves P w others (fun rs => rs.flatMap Option.toList) [] (decodeElements convert elems) := by
  refine conserves_mapOwned elems hb fun r hr w₁ held hsince hb₁ => ?_
  refine hconvert.travelling hb₁ fun id hid => ?_
  exact (hsince.reachable (helems r hr id hid)).mono fun _ hx => List.mem_append_right _ hx

/-- The references in an entry. -/
abbrev entryReferences (e : Ref × Ref) : List ObjId := e.1.toList ++ e.2.toList

/-- Converting an entry, its key first. -/
theorem Converts.entry {key value : Value → Run κ Ref} (hkey : Converts P key)
    (hvalue : Converts P value) {e : Ref × Ref} (hb : w.Balanced P others)
    (he : ∀ id, e.1 = some id ∨ e.2 = some id → w.heap.Reachable others id) :
    Conserves P w others entryReferences [] (decodeEntry key value e) := by
  refine (quiet_travel e.1 false).then_conserves [] hb fun v w₁ hrun _ hsince₁ hb₁ => ?_
  have hborrowed : Borrowed w₁ others v :=
    fun id hid => hsince₁.reachable (he id (.inl (object?_travel hrun hid)))
  refine (hkey hb₁ hborrowed).bind fun k w₁ _ hsince hb₁ => ?_
  have hrest : Conserves P w₁ (k.toList ++ others) Option.toList []
      (do value (← travel e.2 false)) := by
    refine hvalue.travelling hb₁ fun id hid => ?_
    exact ((hsince₁.trans hsince).reachable (he id (.inr hid))).mono
      fun _ hx => List.mem_append_right _ hx
  refine hrest.releasingOnFault.bind fun v w₂ _ _ hb₂ => conserves_pure ?_
  exact hb₂.perm (List.perm_append_comm.append_right others)

/-! ## Collecting entries -/

/-- Putting a value under a key needs no references but those in the list and in the new entry. -/
theorem count_insertEntry_le (same : Ref → Ref → Bool) (k v : Ref) (x : ObjId) :
    ∀ es : List (Ref × Ref), ((insertEntry same k v es).flatMap entryReferences).count x ≤
      (es.flatMap entryReferences).count x + (entryReferences (k, v)).count x
  | [] => by simp [insertEntry]
  | (k', v') :: es => by
      have ih := count_insertEntry_le same k v x es
      simp only [insertEntry]
      split
      · simp only [List.flatMap_cons, entryReferences, List.count_append]
        omega
      · simp only [List.flatMap_cons, entryReferences, List.count_append] at ih ⊢
        omega

theorem count_collected_le (same : Ref → Ref → Bool) (x : ObjId) :
    ∀ (pairs es : List (Ref × Ref)),
      ((pairs.foldl (fun es (k, v) => insertEntry same k v es) es).flatMap entryReferences).count x ≤
        (es.flatMap entryReferences).count x + (pairs.flatMap entryReferences).count x
  | [], _ => Nat.le_add_right _ _
  | (k, v) :: pairs, es => by
      have ih := count_collected_le same x pairs (insertEntry same k v es)
      have hinsert := count_insertEntry_le same k v x es
      rw [List.foldl_cons, List.flatMap_cons, List.count_append]
      refine ih.trans ?_
      omega

/-- The references that are not kept are given up. -/
theorem conserves_collectEntries {pairs : List (Ref × Ref)}
    (hb : w.Balanced P (pairs.flatMap entryReferences ++ others)) :
    Conserves P w others (fun entries => entries.flatMap entryReferences) []
      (collectEntries pairs) := by
  have hasks : Quiet (pairs.forM fun e => askKey e.1 : Run κ Unit) :=
    quiet_forM (fun e => quiet_askKey e.1) pairs
  refine (hasks.holding _ hb).bind fun _ w₁ _ _ hb₁ => conserves_get ?_
  have hkept : ∀ x ∈ (pairs.foldl (fun es (k, v) => insertEntry w₁.sameKey k v es) []).flatMap
      entryReferences, _ ≤ _ := fun x _ => count_collected_le w₁.sameKey x pairs []
  simp only [List.flatMap_nil, List.count_nil, Nat.zero_add] at hkept
  have hperm := List.subperm_append_diff_self_of_count_le hkept
  refine (conserves_releases _ [] ?_).bind fun _ w₂ _ _ hb₂ => conserves_pure hb₂
  refine hb₁.perm ?_
  rw [← List.append_assoc, ← List.diff_eq_foldl]
  exact (List.perm_append_comm.trans hperm).append_right others

/-! ## References of static types -/

/-- A container is rebuilt from what it holds. -/
theorem conserves_decodeContainer {t : RefType} {rebuild : ObjId → Run κ ObjId}
    (hb : w.Balanced P others) (hv : Borrowed w others v)
    (hrebuild : ∀ id {w : World κ} {others : List ObjId}, w.Balanced P others →
      w.heap.Reachable others id → Conserves P w others (fun fresh => [fresh]) [] (rebuild id)) :
    Conserves P w others Option.toList [] (decodeContainer t v rebuild) := by
  refine (conserves_objectOf hb hv).bind fun r w₁ _ _ hb₁ => ?_
  cases r with
  | none => exact conserves_pure hb₁
  | some id =>
      refine ((quiet_touch t.cls).holding [id] hb₁).bind fun _ w₂ _ _ hb₂ =>
        conserves_get ?_
      split
      · exact (conserves_release [] [] hb₂).bind fun _ w₃ _ _ hb₃ =>
          conserves_throw hb₃
      · refine ((quiet_askType t (some id)).holding [id] hb₂).bind fun _ w₃ _ _ hb₃ =>
          conserves_get ?_
        split
        · exact conserves_pure hb₃
        · have hid : w₃.heap.Reachable ([id] ++ others) id := .of_mem (List.mem_cons_self)
          refine (hrebuild id hb₃ hid).attempt.releasing.bind fun answer w₄ _ _ hb₄ => ?_
          cases answer with
          | ok fresh => exact conserves_pure hb₄
          | error cause => exact conserves_throw hb₄

/-- What a content holds can be reached as its object can. -/
theorem reachable_of_payload {content : Payload κ} {x : ObjId}
    (hid : w.heap.Reachable others id) (hcontent : w.payload? id = some content)
    (hx : x ∈ content.references) : w.heap.Reachable others x := by
  obtain ⟨o, ho, rfl⟩ := Option.map_eq_some_iff.mp hcontent
  exact hid.step ho hx

theorem reachable_element (hid : w.heap.Reachable others id) (hr : r ∈ w.elements (some id))
    {x : ObjId} (hx : r = some x) : w.heap.Reachable others x := by
  simp only [World.elements, Option.bind_some] at hr
  split at hr
  · rename_i elems hcontent
    exact reachable_of_payload hid hcontent (List.reduceOption_mem_iff.mpr (hx ▸ hr))
  · cases hr

theorem reachable_entry {e : Ref × Ref} (hid : w.heap.Reachable others id)
    (he : e ∈ w.entries (some id)) {x : ObjId} (hx : e.1 = some x ∨ e.2 = some x) :
    w.heap.Reachable others x := by
  simp only [World.entries, Option.bind_some] at he
  split at he
  · rename_i entries hcontent
    refine reachable_of_payload hid hcontent (List.mem_flatMap.mpr ⟨e, he, ?_⟩)
    rcases hx with hx | hx <;> simp [hx]
  · cases he

theorem reduceOption_eq_flatMap (rs : List Ref) : rs.reduceOption = rs.flatMap Option.toList :=
  List.filterMap_eq_flatMap_toList id rs

/-- A new array of the elements of an array, each converted. -/
def rebuildArray (convert : Value → Run κ Ref) (id : ObjId) : Run κ ObjId := do
  let elems ← decodeElements convert ((← get).elements (some id))
  create .array (.array elems)

/-- A new map of the entries of a map, each converted. -/
def rebuildMap (convertKey convertValue : Value → Run κ Ref) (id : ObjId) : Run κ ObjId := do
  let pairs ← mapOwned entryReferences (decodeEntry convertKey convertValue)
    ((← get).entries (some id))
  create .map (.map (← collectEntries pairs))

theorem Converts.rebuildArray {convert : Value → Run κ Ref} (hconvert : Converts P convert)
    (hb : w.Balanced P others) (hid : w.heap.Reachable others id) :
    Conserves P w others (fun fresh => [fresh]) [] (rebuildArray convert id) := by
  refine conserves_get ((hconvert.elements hb fun r hr x hx => reachable_element hid hr hx).bind
    fun elems w₁ _ _ hb₁ => conserves_create [] ?_ rfl)
  rw [Payload.references, reduceOption_eq_flatMap]
  exact hb₁

theorem Converts.rebuildMap {key value : Value → Run κ Ref} (hkey : Converts P key)
    (hvalue : Converts P value) (hb : w.Balanced P others) (hid : w.heap.Reachable others id) :
    Conserves P w others (fun fresh => [fresh]) [] (rebuildMap key value id) := by
  refine conserves_get ((conserves_mapOwned _ hb fun e he w₁ held hsince hb₁ => ?_).bind
    fun pairs w₁ _ _ hb₁ => ?_)
  · refine hkey.entry hvalue hb₁ fun x hx => ?_
    exact (hsince.reachable (reachable_entry hid he hx)).mono
      fun _ hx => List.mem_append_right _ hx
  · refine (conserves_collectEntries hb₁).bind fun entries w₂ _ _ hb₂ => ?_
    exact conserves_create [] hb₂ rfl

/-- Converting to a reference of a static type. -/
theorem converts_decodeRef (t : RefType) : Converts P (decodeRef (κ := κ) t) := by
  induction t with
  | named name cls => exact conserves_objectOf
  | array elem ih =>
      intro w others v hb hv
      exact conserves_decodeContainer hb hv fun id w₁ others₁ hb₁ hid => ih.rebuildArray hb₁ hid
  | map key value ihKey ihValue =>
      intro w others v hb hv
      exact conserves_decodeContainer hb hv fun id w₁ others₁ hb₁ hid =>
        ihKey.rebuildMap ihValue hb₁ hid

/-! ## Members of types -/

@[simp] theorem object?_asResult (v : Value) : v.asResult.object? = v.object? := by
  cases v with
  | object tag id => cases tag <;> rfl
  | _ => rfl

/-- Members without references take no more than a quiet operation. -/
theorem Quiet.conserves_plain {t : ValueType} {x : Run κ t.Carrier} (hx : Quiet x)
    (hnone : ∀ a, t.references a = []) (hb : w.Balanced P others) :
    Conserves P w others t.references [] x :=
  (hx.conserves [] hb).perm (fun a _ _ => .of_eq (hnone a)) .rfl

/-- Converting to a member of a type.  The references in the member are the caller's. -/
theorem conserves_decode (t : ValueType) (hb : w.Balanced P others) (hv : Borrowed w others v) :
    Conserves P w others t.references [] (decode t v) := by
  induction t generalizing w with
  | int | f64 | bool | text | dataType =>
      exact (quiet_queryAsking _ _ _).conserves_plain (fun _ => rfl) hb
  | f32 =>
      exact ((quiet_queryAsking _ _ _).bind fun _ => quiet_pure _).conserves_plain (t := .f32)
        (fun _ => rfl) hb
  | bytes | device | rawDevice | handle | tensorHandle =>
      exact (quiet_query _).conserves_plain (fun _ => rfl) hb
  | unit => exact conserves_pure hb
  | any =>
      refine (conserves_retainRef [] [] hb hv).bind fun _ w₁ _ _ hb₁ => conserves_pure ?_
      rw [ValueType.references, object?_asResult]
      exact hb₁.perm (by simp)
  | ref r => exact converts_decodeRef r hb hv
  | option t ih =>
      rw [decode]
      split
      · exact conserves_pure hb
      · exact (ih hb hv).map fun _ => rfl
  | variant a b iha ihb =>
      rw [decode]
      refine conserves_get ((iha hb hv).attempt.bind fun first w₁ _ hsince hb₁ => ?_)
      cases first with
      | ok x => exact conserves_pure hb₁
      | error cause =>
          refine (ihb hb₁ (hv.since hsince)).attempt.bind fun second w₂ _ _ hb₂ => ?_
          cases second with
          | ok x => exact conserves_pure hb₂
          | error cause => exact conserves_throw hb₂

/-- A reference becomes the value that carries it, or is given up for the number in its box. -/
theorem conserves_encodeRef {moved : Bool} (hb : w.Balanced P (r.toList ++ others)) :
    Conserves P w others (·.object?.toList) [] (encodeRef r moved) := by
  refine ((quiet_travel r moved).holding _ hb).bind fun v w₁ hrun _ hb₁ => ?_
  cases hv : v.object? with
  | none =>
      simp only [Option.isNone_none, if_true]
      refine (conserves_releases [] [] hb₁).bind fun _ w₂ _ _ hb₂ =>
        conserves_pure ?_
      rw [hv]
      exact hb₂
  | some id =>
      simp only [Option.isNone_some, Bool.false_eq_true, if_false]
      refine conserves_pure ?_
      rw [hv, ← object?_travel (releasingOnFault_eq_ok.mp hrun) hv]
      exact hb₁

/-- The references in a member go over to the value that it becomes. -/
theorem conserves_encode (t : ValueType) (x : t.Carrier)
    (hb : w.Balanced P (t.references x ++ others)) :
    Conserves P w others (·.object?.toList) [] (encode t x) := by
  induction t with
  | int k =>
      rw [encode]
      split
      · exact conserves_pure hb
      · exact conserves_throw hb
  | f32 | f64 | bool | text | bytes | dataType | device | rawDevice | handle | tensorHandle |
      unit => exact conserves_pure hb
  | any =>
      refine conserves_pure ?_
      rw [object?_asResult]
      exact hb
  | ref r => exact conserves_encodeRef hb
  | option t ih =>
      cases x with
      | none => exact conserves_pure hb
      | some x => exact ih x hb
  | variant a b iha ihb =>
      cases x with
      | inl x => exact iha x hb
      | inr x => exact ihb x hb

end Run

end ObjectRuntime
