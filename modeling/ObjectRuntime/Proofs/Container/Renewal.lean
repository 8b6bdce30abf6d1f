import ObjectRuntime.Proofs.Container.Array
import ObjectRuntime.Proofs.Container.Box
import ObjectRuntime.Proofs.Container.Map
import ObjectRuntime.Proofs.Reflection.Objects
set_option autoImplicit false

/-!
# Objects that are made or changed

Whatever makes or changes a container does so to one object, which nobody but the caller can reach:
a new one, or one that the caller alone refers to.  All other objects keep their types and contents
(`World.Renews`).  So a container may change in place and no other handle shows it.
-/

namespace ObjectRuntime

open Relation (ReflTransGen TransGen)
open Heap (Becomes Grown Intact)
open World (Balanced Since)

variable {κ : Type} {P : κ → Prop} {w w' w'' : World κ} {others held : List ObjId}
  {id x : ObjId} {c : ObjectClass} {payload : Payload κ}

/-! ## Contents that stay -/

namespace Heap

variable {h h' h'' : Heap κ}

/-- Objects that are there before and after have the same type and, but for one of them, the same
content. -/
def Rewrites (id : ObjId) (h h' : Heap κ) : Prop :=
  ∀ x o o', x ≠ id → h.get? x = some o → h'.get? x = some o' →
    o'.typeIndex = o.typeIndex ∧ o'.payload = o.payload

/-- Both heaps have become one in which nothing has another content. -/
theorem Rewrites.of_common (hg : Grown h h'') (hg' : Grown h' h'') : Rewrites id h h' := by
  intro x o o' _ ho ho'
  obtain ⟨n, hn⟩ := hg x o ho
  obtain ⟨n', hn'⟩ := hg' x o' ho'
  obtain ⟨htype, -, hpayload⟩ := Object.mk.inj (Option.some.inj (hn'.symm.trans hn))
  exact ⟨htype, hpayload⟩

theorem Rewrites.of_grown (hg : Grown h h') : Rewrites id h h' := .of_common hg (.refl h')

theorem Rewrites.of_shrunk (hg : Grown h' h) : Rewrites id h h' := .of_common (.refl h) hg

theorem Rewrites.refl (h : Heap κ) : Rewrites id h h := .of_grown (.refl h)

theorem rewrites_setPayload (h : Heap κ) (id : ObjId) (payload : Payload κ) :
    Rewrites id h (h.setPayload id payload) := by
  intro x o o' hx ho ho'
  simp only [setPayload] at ho'
  split at ho'
  · rw [get?_set_of_ne hx, ho] at ho'
    cases ho'
    exact ⟨rfl, rfl⟩
  · cases ho.symm.trans ho'
    exact ⟨rfl, rfl⟩

/-- What is gone does not come back. -/
theorem alive_between (hb : Becomes h h') (hb' : Becomes h' h'') {o o'' : Object κ}
    (ho : h.get? x = some o) (ho'' : h''.get? x = some o'') : ∃ o', h'.get? x = some o' := by
  obtain ⟨_, hended⟩ := exists_ended hb
  obtain ⟨_, hended'⟩ := exists_ended hb'
  cases ho' : h'.get? x with
  | some o' => exact ⟨o', rfl⟩
  | none =>
      have hlt : x.index < h'.cells.size := Nat.lt_of_lt_of_le (lt_size_of_get? ho) hended.size
      rw [hended'.stays hlt ho'] at ho''
      cases ho''

theorem Rewrites.trans (hr : Rewrites id h h') (hr' : Rewrites id h' h'') (hb : Becomes h h')
    (hb' : Becomes h' h'') : Rewrites id h h'' := by
  intro x o o'' hx ho ho''
  obtain ⟨o', ho'⟩ := alive_between hb hb' ho ho''
  obtain ⟨htype, hpayload⟩ := hr x o o' hx ho ho'
  obtain ⟨htype', hpayload'⟩ := hr' x o' o'' hx ho' ho''
  exact ⟨htype'.trans htype, hpayload'.trans hpayload⟩

/-- Who reaches a list of objects reaches what is below them. -/
theorem Reachable.through {ids : List ObjId} (hx : h.Reachable ids x)
    (hids : ∀ y ∈ ids, h.Reachable held y) : h.Reachable held x := by
  obtain ⟨y, hy, hyx⟩ := hx
  obtain ⟨r, hr, hry⟩ := hids y hy
  exact ⟨r, hr, hry.trans hyx⟩

/-- What is found intact could be reached before. -/
theorem Intact.back {keep : List ObjId} (hi : Intact held h h') (hb : h.Owned keep)
    (hsub : ∀ r ∈ held, r ∈ keep) (hx : h'.Reachable held x) : h.Reachable held x := by
  obtain ⟨r, hr, hreach⟩ := hx
  induction hreach with
  | refl => exact .of_mem hr
  | @tail y z _ hstep ih =>
      obtain ⟨o', ho', hz⟩ := hstep
      obtain ⟨o, ho⟩ := hb.alive_of_reachable (ih.mono hsub)
      obtain ⟨n, hn⟩ := hi y o ih ho
      cases ho'.symm.trans hn
      exact ih.step ho hz

end Heap

/-! ## Contents that are made or changed -/

/-- One object has been made or changed and has the content now. -/
structure World.Remakes (P : κ → Prop) (w : World κ) (others : List ObjId) (id : ObjId)
    (payload : Payload κ) (w' : World κ) : Prop where
  since : Since w others w'
  balanced : w'.Balanced P (id :: others)
  rewrites : Heap.Rewrites id w.heap w'.heap
  content : w'.payload? id = some payload

/-- The content of an object changes while the caller alone refers to it, and what it has given up is
released. -/
theorem Run.rewritten {old : Payload κ} (payload : Payload κ) (taken dropped : List ObjId)
    (hb : w.Balanced P (id :: (taken ++ others))) (hone : w.heap.count id = 1)
    (hold : w.payload? id = some old) (hhooks : payload.hooks = old.hooks)
    (hallowed : w.Allows P payload)
    (hperm : List.Perm (payload.references ++ dropped) (old.references ++ taken)) :
    Since w others { w with heap := w.heap.setPayload id payload } ∧
      Since { w with heap := w.heap.setPayload id payload } (id :: others)
        { w with heap := dropped.foldl Heap.release (w.heap.setPayload id payload) } ∧
      ({ w with heap := dropped.foldl Heap.release (w.heap.setPayload id payload) } :
        World κ).Balanced P (id :: others) := by
  obtain ⟨hset, hb₁⟩ := (Run.conserves_setPayload taken dropped [] hb hone hold hhooks hallowed
    hperm).ok () _ rfl
  have hb₂ : ({ w with heap := w.heap.setPayload id payload } : World κ).Balanced P
      (dropped ++ ([] ++ (id :: others))) := hb₁.perm List.perm_middle
  obtain ⟨hreleased, hdone⟩ := (Run.conserves_releases [] [] hb₂).ok () _ rfl
  exact ⟨hset, hreleased, hdone⟩

namespace World.Remakes

/-- What the object holds now is reached by way of it. -/
theorem refers (h : w.Remakes P others id payload w') (hx : x ∈ payload.references) :
    w'.heap.Refers id x := by
  obtain ⟨o, ho, rfl⟩ := Option.map_eq_some_iff.mp h.content
  exact ⟨o, ho, hx⟩

/-- What is below the content before is below the object afterwards. -/
theorem below (h : w.Remakes P others id payload w') (hx : x ∈ payload.references) {y : ObjId}
    (hy : ReflTransGen w.heap.Refers x y) : TransGen w'.heap.Refers id y := by
  induction hy with
  | refl => exact .single (h.refers hx)
  | @tail y z _ hstep ih =>
      obtain ⟨o, ho, hz⟩ := hstep
      have hne : y ≠ id := by
        rintro rfl
        exact h.balanced.owned.acyclic _ ih
      obtain ⟨_, -, o₁, ho₁, hy⟩ := Relation.TransGen.tail'_iff.mp ih
      obtain ⟨o', ho'⟩ := h.balanced.owned.alive_of_reference ho₁ hy
      obtain ⟨-, hpayload⟩ := h.rewrites y o o' hne ho ho'
      exact ih.tail ⟨o', ho', hpayload ▸ hz⟩

/-- What the content holds is as it was, down to the last object. -/
theorem intact (h : w.Remakes P others id payload w') :
    Intact payload.references w.heap w'.heap := by
  rintro y o ⟨x, hx, hxy⟩ ho
  have hbelow := h.below hx hxy
  have hne : y ≠ id := by
    rintro rfl
    exact h.balanced.owned.acyclic _ hbelow
  obtain ⟨_, -, o₁, ho₁, hy⟩ := Relation.TransGen.tail'_iff.mp hbelow
  obtain ⟨o', ho'⟩ := h.balanced.owned.alive_of_reference ho₁ hy
  obtain ⟨htype, hpayload⟩ := h.rewrites y o o' hne ho ho'
  refine ⟨o'.count, ho'.trans (congrArg some ?_)⟩
  rw [← htype, ← hpayload]

/-- Something has happened before that others cannot tell. -/
theorem after (h : w'.Remakes P others id payload w'') (hs : Since w others w')
    (hr : Heap.Rewrites id w.heap w'.heap) : w.Remakes P others id payload w'' where
  since := hs.trans h.since
  balanced := h.balanced
  rewrites := hr.trans h.rewrites hs.becomes h.since.becomes
  content := h.content

/-- The content changes while the caller alone refers to the object: it takes up references that the
caller gives, and those that it gives up are dropped. -/
theorem rewrite {old : Payload κ} (payload : Payload κ) (taken dropped : List ObjId)
    (h : w.Remakes P (taken ++ others) id old w') (hone : w'.heap.count id = 1)
    (hhooks : payload.hooks = old.hooks) (hallowed : w'.Allows P payload)
    (hperm : List.Perm (payload.references ++ dropped) (old.references ++ taken)) :
    w.Remakes P others id payload
      { w' with heap := dropped.foldl Heap.release (w'.heap.setPayload id payload) } := by
  obtain ⟨hset, hreleased, hdone⟩ := Run.rewritten payload taken dropped h.balanced hone h.content
    hhooks hallowed hperm
  have hothers : ∀ y ∈ others, y ∈ id :: others := fun _ hy => List.mem_cons_of_mem _ hy
  have hbefore : Since w others w' := h.since.of_append
  refine ⟨hbefore.trans (hset.trans (hreleased.mono hothers)), hdone, ?_, ?_⟩
  · have hafter := (Heap.rewrites_setPayload w'.heap id payload).trans
      (.of_shrunk (Heap.grown_of_releases _ dropped)) hset.becomes hreleased.becomes
    exact h.rewrites.trans hafter hbefore.becomes (hset.becomes.trans hreleased.becomes)
  · obtain ⟨o, ho, hpayload⟩ := Option.map_eq_some_iff.mp
      (Run.payload?_setPayload h.content)
    obtain ⟨n, hn⟩ := hreleased.intact id o (.of_mem List.mem_cons_self) ho
    simp only [World.payload?, hn, Option.map_some, hpayload]

end World.Remakes

/-! ## Objects of classes -/

/-- The object is of the class and has the content. -/
structure World.ObjectAt (w : World κ) (id : ObjId) (c : ObjectClass) (payload : Payload κ) :
    Prop where
  cls : w.OfClass id c
  content : w.payload? id = some payload

namespace World.ObjectAt

theorem alive (h : w.ObjectAt id c payload) :
    ∃ o, w.heap.get? id = some o ∧ o.payload = payload := Option.map_eq_some_iff.mp h.content

/-- What an object holds is reached by way of it. -/
theorem refers (h : w.ObjectAt id c payload) (hx : x ∈ payload.references) :
    w.heap.Refers id x := by
  obtain ⟨o, ho, rfl⟩ := h.alive
  exact ⟨o, ho, hx⟩

/-- An object that is found with the same type and content is of the same class. -/
theorem of_same {o o' : Object κ} (h : w.ObjectAt id c payload) (ho : w.heap.get? id = some o)
    (ho' : w'.heap.get? id = some o') (htype : o'.typeIndex = o.typeIndex)
    (hpayload : o'.payload = o.payload)
    (hknown : ∀ {c i}, w.types.classIndex? c = some i → w'.types.classIndex? c = some i) :
    w'.ObjectAt id c payload := by
  have hindex : w.typeIndex id = o.typeIndex := by simp [World.typeIndex, ho]
  have hindex' : w'.typeIndex id = o'.typeIndex := by simp [World.typeIndex, ho']
  have hcontent : w.payload? id = some o.payload := by simp [World.payload?, ho]
  refine ⟨hknown ?_, ?_⟩
  · rw [hindex', htype, ← hindex]
    exact h.cls
  · rw [World.payload?, ho', Option.map_some, hpayload, ← hcontent]
    exact h.content

/-- What others can reach stays what it is. -/
theorem since (h : w.ObjectAt x c payload) (hs : Since w others w')
    (hx : w.heap.Reachable others x) : w'.ObjectAt x c payload := by
  obtain ⟨o, ho, -⟩ := h.alive
  obtain ⟨n, hn⟩ := hs.intact x o hx ho
  exact h.of_same ho hn rfl rfl hs.known

end World.ObjectAt

/-! ## Renewal -/

/-- An object that nobody else could reach has been made or changed. -/
structure World.Renews (P : κ → Prop) (w : World κ) (others : List ObjId) (id : ObjId)
    (c : ObjectClass) (payload : Payload κ) (w' : World κ) : Prop where
  since : Since w others w'
  balanced : w'.Balanced P (id :: others)
  apart : ¬ w.heap.Reachable others id
  rewrites : Heap.Rewrites id w.heap w'.heap
  made : w'.ObjectAt id c payload

namespace World.Renews

theorem remakes (h : w.Renews P others id c payload w') : w.Remakes P others id payload w' :=
  ⟨h.since, h.balanced, h.rewrites, h.made.content⟩

/-- What is below the content before is below the object afterwards. -/
theorem below (h : w.Renews P others id c payload w') (hx : x ∈ payload.references) {y : ObjId}
    (hy : ReflTransGen w.heap.Refers x y) : TransGen w'.heap.Refers id y := h.remakes.below hx hy

/-- What is below the object afterwards is below its content before. -/
theorem back {keep : List ObjId} (h : w.Renews P others id c payload w')
    (hheld : ∀ x ∈ payload.references, w.heap.Reachable held x) (hb : w.Balanced P keep)
    (hsub : ∀ r ∈ held, r ∈ keep) {y : ObjId} (hy : TransGen w'.heap.Refers id y) :
    y ≠ id ∧ w.heap.Reachable held y := by
  have hne : ∀ {y}, TransGen w'.heap.Refers id y → y ≠ id := by
    rintro y hy rfl
    exact h.balanced.owned.acyclic _ hy
  refine ⟨hne hy, ?_⟩
  induction hy with
  | single hstep =>
      obtain ⟨o, ho, hx⟩ := hstep
      have hcontent : o.payload = payload := by
        have hmade := h.made.content
        rw [World.payload?, ho] at hmade
        exact Option.some.inj hmade
      exact hheld _ (hcontent ▸ hx)
  | @tail y z hy hstep ih =>
      obtain ⟨o', ho', hz⟩ := hstep
      obtain ⟨o, ho⟩ := hb.alive (ih.mono hsub)
      obtain ⟨-, hpayload⟩ := h.rewrites y o o' (hne hy) ho ho'
      exact ih.step ho (hpayload ▸ hz)

/-- Something has happened before that others cannot tell. -/
theorem after (h : w'.Renews P others id c payload w'') (hs : Since w others w')
    (hr : Heap.Rewrites id w.heap w'.heap) : w.Renews P others id c payload w'' where
  since := hs.trans h.since
  balanced := h.balanced
  apart hx := h.apart (hs.reachable hx)
  rewrites := hr.trans h.rewrites hs.becomes h.since.becomes
  made := h.made

/-- The content changes while the caller alone refers to the object, which stays of its class. -/
theorem rewrite {old : Payload κ} (payload : Payload κ) (taken dropped : List ObjId)
    (h : w.Renews P (taken ++ others) id c old w') (hone : w'.heap.count id = 1)
    (hhooks : payload.hooks = old.hooks) (hallowed : w'.Allows P payload)
    (hperm : List.Perm (payload.references ++ dropped) (old.references ++ taken)) :
    w.Renews P others id c payload
      { w' with heap := dropped.foldl Heap.release (w'.heap.setPayload id payload) } := by
  have hchanged := h.remakes.rewrite payload taken dropped hone hhooks hallowed hperm
  refine ⟨hchanged.since, hchanged.balanced, fun hx => ?_, hchanged.rewrites, ?_⟩
  · exact h.apart (hx.mono fun _ hy => List.mem_append_right _ hy)
  · obtain ⟨-, hreleased, -⟩ := Run.rewritten payload taken dropped h.balanced hone h.made.content
      hhooks hallowed hperm
    obtain ⟨o, ho, -⟩ := h.made.alive
    have hget : (w'.heap.setPayload id payload).get? id = some { o with payload } := by
      simp only [Heap.setPayload, ho, Heap.get?_set_self ho]
    have hmade : ({ w' with heap := w'.heap.setPayload id payload } : World κ).ObjectAt
        id c payload := by
      refine ⟨?_, Run.payload?_setPayload h.made.content⟩
      have hcls := h.made.cls
      simp only [OfClass, World.typeIndex, ho, hget, Option.map_some] at hcls ⊢
      exact hcls
    exact hmade.since hreleased (.of_mem List.mem_cons_self)

end World.Renews

namespace Run

/-- A fresh object is of its class. -/
theorem IsFresh.objectAt (h : IsFresh w id c payload) : w.ObjectAt id c payload := by
  obtain ⟨first, hknown, hget⟩ := h
  refine ⟨?_, by simp [World.payload?, hget]⟩
  simp [World.OfClass, World.typeIndex, hget, hknown]

/-- A new object. -/
theorem renews_create (hb : w.Balanced P (payload.references ++ others))
    (hsuits : Suits P c payload) (hrun : create c payload w = (.ok id, w')) :
    w.Renews P others id c payload w' := by
  obtain ⟨hsince, hb'⟩ := (conserves_create [] hb hsuits).ok id w' hrun
  refine ⟨hsince, hb', fun hx => ?_, ?_, (isFresh_of_create hrun).objectAt⟩
  · obtain ⟨_, _, -, -, -, rfl, -⟩ := create_inv hrun
    obtain ⟨o, ho⟩ := hb.alive (hx.mono fun _ hy => List.mem_append_right _ hy)
    exact Nat.lt_irrefl _ (Heap.lt_size_of_get? ho)
  · obtain ⟨_, _, -, -, -, -, rfl⟩ := create_inv hrun
    exact .of_grown (Heap.grown_alloc _ _ _)

/-- A copy that takes the place of a reference. -/
theorem renews_replace {a : ObjId} (hb : w.Balanced P (a :: others))
    (hcontent : ∀ x ∈ payload.references, w.heap.Reachable (a :: others) x)
    (hsuits : Suits P c payload) (hrun : replace a c payload w = (.ok id, w')) :
    w.Renews P others id c payload w' := by
  obtain ⟨hsince, hb'⟩ := (conserves_replace hb hcontent hsuits).ok id w' hrun
  obtain ⟨h, hgrown, hgrown'⟩ := grown_of_replace hrun
  refine ⟨hsince, hb', fun hx => ?_, .of_common hgrown hgrown',
    (isFresh_of_replace hb hcontent hsuits hrun).objectAt⟩
  -- the copy stands where no object was before
  obtain ⟨_, w₁, hretain, hrest⟩ := run_bind_eq_ok.mp hrun
  obtain ⟨copy, w₂, hcreate, hrest⟩ := run_bind_eq_ok.mp hrest
  obtain ⟨_, w₃, -, hdone⟩ := run_bind_eq_ok.mp hrest
  cases hdone
  cases hretain
  obtain ⟨_, _, -, -, -, rfl, -⟩ := create_inv hcreate
  obtain ⟨o, ho⟩ := hb.alive (hx.mono fun _ hy => List.mem_cons_of_mem _ hy)
  have hlt := Heap.lt_size_of_get? ho
  simp at hlt

/-- An object to which the caller has the only reference. -/
theorem renews_unique {r : Ref} (hb : w.Balanced P (r.toList ++ others))
    (hr : ∀ a, r = some a → w.ObjectAt a c payload) (hempty : r = none → payload.references = [])
    (hsuits : Suits P c payload) (hrun : unique c payload r w = (.ok id, w')) :
    w.Renews P others id c payload w' ∧ w'.heap.count id = 1 := by
  have hholds : w.Holds r payload := by
    cases r with
    | none => exact hempty rfl
    | some a => exact (hr a rfl).content
  refine ⟨?_, (one_of_unique hb hholds hsuits hrun).1⟩
  cases r with
  | none =>
      refine renews_create ?_ hsuits hrun
      rw [hempty rfl]
      exact hb
  | some a =>
      by_cases hone : w.heap.count a = 1
      · rw [unique_of_one hone] at hrun
        cases hrun
        exact ⟨.refl w others, hb, hb.owned.not_reachable hone, .refl _, hr id rfl⟩
      · rw [unique_of_many hone] at hrun
        exact renews_replace hb (reachable_of_holds hholds) hsuits hrun

end Run

/-! ## Arrays -/

namespace Arr

variable {r value r' : Ref}

/-- An array to which the caller has the only reference. -/
theorem renews_makeUnique (hb : w.Balanced P (r.toList ++ others))
    (hr : ∀ a, r = some a → w.ObjectAt a .array (.array (w.elements r)))
    (hrun : makeUnique r w = (.ok id, w')) :
    w.Renews P others id .array (.array (w.elements r)) w' ∧ w'.heap.count id = 1 := by
  rw [makeUnique_eq] at hrun
  refine Run.renews_unique hb hr (fun hnone => ?_) rfl hrun
  rw [hnone]
  rfl

/-- A new array. -/
theorem renews_ofList {elems : List Ref} (hb : w.Balanced P (elems.flatMap Option.toList ++ others))
    (hrun : ofList elems w = (.ok r', w')) :
    ∃ id, r' = some id ∧ w.Renews P others id .array (.array elems) w' := by
  obtain ⟨id, hcreate, rfl⟩ := run_map_eq_ok.mp hrun
  rw [← Run.reduceOption_eq_flatMap] at hb
  exact ⟨id, rfl, Run.renews_create hb rfl hcreate⟩

/-- The array with one element more. -/
theorem renews_push (hb : w.Balanced P (r.toList ++ (value.toList ++ others)))
    (hr : ∀ a, r = some a → w.ObjectAt a .array (.array (w.elements r)))
    (hrun : push r value w = (.ok r', w')) :
    ∃ id, r' = some id ∧ w.Renews P others id .array (.array (w.elements r ++ [value])) w' := by
  obtain ⟨id, w₁, rfl, hmake, rfl⟩ := push_inv hb (fun a ha => ⟨_, (hr a ha).content⟩) hrun
  obtain ⟨hmade, hone⟩ := renews_makeUnique hb hr hmake
  refine ⟨id, rfl, hmade.rewrite _ _ [] hone rfl
    (hmade.balanced.allows_array hmade.made.content _) ?_⟩
  simp only [Payload.references, List.reduceOption_append, List.append_nil]
  cases value <;> exact .rfl

/-- The array with an element replaced. -/
theorem renews_set {index : Int} (hb : w.Balanced P (r.toList ++ (value.toList ++ others)))
    (hr : ∀ a, r = some a → w.ObjectAt a .array (.array (w.elements r)))
    (hrun : set r index value w = (.ok r', w')) :
    ∃ id i, r' = some id ∧ position (w.elements r).length index = .ok i ∧
      w.Renews P others id .array (.array ((w.elements r).set i value)) w' := by
  obtain ⟨id, i, w₁, rfl, hi, hmake, rfl⟩ :=
    set_inv hb (fun a ha => ⟨_, (hr a ha).content⟩) hrun
  obtain ⟨hmade, hone⟩ := renews_makeUnique hb hr hmake
  exact ⟨id, i, rfl, hi, hmade.rewrite _ _ _ hone rfl
    (hmade.balanced.allows_array hmade.made.content _)
    (reduceOption_set_perm (position_eq_ok hi).1)⟩

end Arr

/-! ## Boxes -/

/-- The box with another content. -/
theorem Box.renews_setValue {r r' : Ref} {content : BoxContent}
    (hb : w.Balanced P (r.toList ++ others))
    (hr : ∀ a, r = some a → ∃ old : BoxContent, w.ObjectAt a content.cls old.payload)
    (hrun : setValue r content w = (.ok r', w')) :
    ∃ id, r' = some id ∧ w.Renews P others id content.cls content.payload w' := by
  have hempty : (content.payload : Payload κ).references = [] := content.references_payload
  cases r with
  | none =>
      obtain ⟨id, hmake, rfl⟩ := run_map_eq_ok.mp hrun
      refine ⟨id, rfl, Run.renews_create ?_ (content.suits _) hmake⟩
      rw [hempty]
      exact hb
  | some a =>
      obtain ⟨old, hold⟩ := hr a rfl
      by_cases hsole : w.heap.count a = 1
      · rw [setValue_of_one hsole] at hrun
        cases hrun
        have hnow : w.Renews P others a content.cls old.payload w :=
          ⟨.refl w others, hb, hb.owned.not_reachable hsole, .refl _, hold⟩
        exact ⟨a, rfl, hnow.rewrite _ [] [] hsole (by simp)
          (content.allows w) (by simp)⟩
      · rw [setValue_of_many hsole] at hrun
        obtain ⟨copy, hreplace, rfl⟩ := run_map_eq_ok.mp hrun
        exact ⟨copy, rfl, Run.renews_replace hb (by simp) (content.suits _) hreplace⟩

/-! ## Maps -/

namespace Dict

variable {r key value r' : Ref}

theorem sameKey_of_heap (hheap : w'.heap = w.heap) : w'.sameKey = w.sameKey :=
  funext fun _ => funext fun _ => sameKey_eq (fun x _ => World.payload?_of_heap hheap x)
    fun x _ => World.payload?_of_heap hheap x

/-- Entries are collected with the keys compared as they are; only references are given up. -/
theorem collectEntries_inv {pairs entries : List (Ref × Ref)}
    (hrun : Run.collectEntries pairs w = (.ok entries, w')) :
    entries = pairs.foldl (fun es e => insertEntry w.sameKey e.1 e.2 es) [] ∧
      Heap.Grown w'.heap w.heap := by
  have hasks : Run.Quiet (pairs.forM fun e => Run.askKey e.1 : Run κ Unit) :=
    Run.quiet_forM (fun e => Run.quiet_askKey e.1) pairs
  obtain ⟨_, w₁, hask, hrest⟩ := run_bind_eq_ok.mp hrun
  have hheap := (hasks w).1
  rw [Run.releasingOnFault_eq_ok.mp hask] at hheap
  rw [run_get_bind] at hrest
  obtain ⟨_, w₂, hrelease, hdone⟩ := run_bind_eq_ok.mp hrest
  cases hdone
  cases hrelease
  exact ⟨by rw [sameKey_of_heap hheap], hheap ▸ Heap.grown_of_releases _ _⟩

/-- A new map with the entries of a list. -/
theorem renews_ofList {pairs : List (Ref × Ref)}
    (hb : w.Balanced P (pairs.flatMap Run.entryReferences ++ others))
    (hrun : ofList pairs w = (.ok r', w')) :
    ∃ id, r' = some id ∧ w.Renews P others id .map
      (.map (pairs.foldl (fun es e => insertEntry w.sameKey e.1 e.2 es) [])) w' := by
  obtain ⟨entries, w₁, hcollect, hrest⟩ := run_bind_eq_ok.mp hrun
  obtain ⟨id, w₂, hcreate, hdone⟩ := run_bind_eq_ok.mp hrest
  cases hdone
  obtain ⟨hsince, hb₁⟩ := (Run.conserves_collectEntries hb).ok _ _ hcollect
  obtain ⟨rfl, hgrown⟩ := collectEntries_inv hcollect
  have howned : w₁.Balanced P
      ((Payload.map (pairs.foldl (fun es e => insertEntry w.sameKey e.1 e.2 es) []) :
        Payload κ).references ++ others) := hb₁
  exact ⟨id, rfl, (Run.renews_create howned rfl hcreate).after hsince (.of_shrunk hgrown)⟩

/-- A map to which the caller has the only reference. -/
theorem renews_makeUnique (hb : w.Balanced P (r.toList ++ others))
    (hr : ∀ a, r = some a → w.ObjectAt a .map (.map (w.entries r)))
    (hrun : makeUnique r w = (.ok id, w')) :
    w.Renews P others id .map (.map (w.entries r)) w' ∧ w'.heap.count id = 1 := by
  rw [makeUnique_eq] at hrun
  refine Run.renews_unique hb hr (fun hnone => ?_) rfl hrun
  rw [hnone]
  rfl

/-- The map with a value under a key. -/
theorem renews_insert (hb : w.Balanced P (r.toList ++ ((key.toList ++ value.toList) ++ others)))
    (hr : ∀ a, r = some a → w.ObjectAt a .map (.map (w.entries r)))
    (hrun : insert r key value w = (.ok r', w')) :
    ∃ id, r' = some id ∧ w.Renews P others id .map
      (.map (insertEntry w.sameKey key value (w.entries r))) w' := by
  obtain ⟨id, w₁, w₂, rfl, hask, hheap, hmake, rfl⟩ :=
    insert_inv hb (fun a ha => ⟨_, (hr a ha).content⟩) hrun
  have hb₁ := (quiet_askInsert key).balanced hb
  have hsince := (quiet_askInsert key).since w
  rw [hask] at hb₁ hsince
  have hr₁ : ∀ a, r = some a → w₁.ObjectAt a .map (.map (w₁.entries r)) := by
    rintro a rfl
    rw [entries_of_heap hheap]
    exact (hr a rfl).since (hsince [a]) (.of_mem List.mem_cons_self)
  obtain ⟨hmade, hone⟩ := renews_makeUnique hb₁ hr₁ hmake
  have hheld : ∀ x, key = some x →
      w₁.heap.Reachable ((key.toList ++ value.toList) ++ others) x := by
    rintro x rfl
    exact .of_mem List.mem_cons_self
  have hentries : insertEntry w₂.sameKey key value (w.entries r) =
      insertEntry w.sameKey key value (w.entries r) := by
    rw [← entries_of_heap hheap, insertEntry_congr (sameKey_of_makeUnique hb₁
      (fun a ha => ⟨_, (hr₁ a ha).content⟩) hheld hmake), sameKey_of_heap hheap]
  rw [entries_of_heap hheap] at hmade
  rw [← hentries]
  exact ⟨id, rfl, (hmade.rewrite (.map (insertEntry w₂.sameKey key value (w.entries r))) _ _ hone
    rfl (hmade.balanced.allows_map hmade.made.content _)
    (insertEntry_perm w₂.sameKey key value (w.entries r))).after (hsince others)
    (hheap ▸ .refl _)⟩

/-- The map without the entry with a key, if there is one; otherwise the map is given back. -/
theorem renews_remove (hb : w.Balanced P (r.toList ++ others))
    (hr : ∀ a, r = some a → w.ObjectAt a .map (.map (w.entries r)))
    (hkey : ∀ x, key = some x → w.heap.Reachable others x) {found : Bool}
    (hrun : remove r key w = (.ok (r', found), w')) :
    (found = true ∧ ((w.entries r).any fun e => w.sameKey e.1 key) = true ∧
      ∃ id, r' = some id ∧ w.Renews P others id .map
        (.map ((w.entries r).eraseP fun e => w.sameKey e.1 key)) w') ∨
    (found = false ∧ ((w.entries r).any fun e => w.sameKey e.1 key) = false ∧ r' = r ∧
      w'.Balanced P (r.toList ++ others) ∧ ∀ held, Since w held w') := by
  obtain ⟨w₁, hask, hheap, hfound⟩ := remove_inv hb (fun a ha => ⟨_, (hr a ha).content⟩) hrun
  have hb₁ := (quiet_askLookup r key).balanced hb
  have hsince := (quiet_askLookup r key).since w
  rw [hask] at hb₁ hsince
  rw [sameKey_of_heap hheap] at hfound
  cases hfind : (w.entries r).find? fun e => w.sameKey e.1 key with
  | none =>
      rw [hfind] at hfound
      obtain ⟨rfl, rfl, rfl⟩ := hfound
      exact .inr ⟨rfl, List.any_eq_false.mpr (List.find?_eq_none.mp hfind), rfl, hb₁, hsince⟩
  | some e =>
      rw [hfind] at hfound
      obtain ⟨rfl, id, w₂, rfl, hmake, rfl⟩ := hfound
      have hr₁ : ∀ a, r = some a → w₁.ObjectAt a .map (.map (w₁.entries r)) := by
        rintro a rfl
        rw [entries_of_heap hheap]
        exact (hr a rfl).since (hsince [a]) (.of_mem List.mem_cons_self)
      obtain ⟨hmade, hone⟩ := renews_makeUnique hb₁ hr₁ hmake
      have hsame : ∀ e ∈ w.entries r, w₂.sameKey e.1 key = w.sameKey e.1 key := by
        intro e he
        rw [sameKey_of_makeUnique hb₁ (fun a ha => ⟨_, (hr₁ a ha).content⟩)
          (fun x hx => hheap ▸ hkey x hx) hmake e (entries_of_heap hheap r ▸ he),
          sameKey_of_heap hheap]
      have hfind₂ : ((w.entries r).find? fun e => w₂.sameKey e.1 key) = some e := by
        rw [List.find?_congr hsame, hfind]
      have he : w.sameKey e.1 key = true := by simpa using List.find?_some hfind
      refine .inl ⟨rfl, List.any_eq_true.mpr ⟨e, List.mem_of_find?_eq_some hfind, he⟩, id, rfl, ?_⟩
      rw [entries_of_heap hheap] at hmade
      rw [← eraseP_congr hsame]
      exact (hmade.rewrite (.map ((w.entries r).eraseP fun e => w₂.sameKey e.1 key)) [] _ hone rfl
        (hmade.balanced.allows_map hmade.made.content _)
        ((eraseP_perm hfind₂).trans (.of_eq (List.append_nil _).symm))).after (hsince others)
        (hheap ▸ .refl _)

end Dict

end ObjectRuntime
