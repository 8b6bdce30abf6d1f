import ObjectRuntime.Membership
import ObjectRuntime.Proofs.Object.History
import ObjectRuntime.Proofs.Object.Ownership
import ObjectRuntime.Proofs.Sequencing
import ObjectRuntime.Proofs.TypeTable.Lookups
set_option autoImplicit false

/-!
# Operations that conserve references

An operation runs while others hold references of their own.  It starts with references that it has
been given, ends with those that it gives to its caller, and may fail on the way.  It conserves
references (`Run.Conserves`) if every reference is counted at its end, whether or not it fails, and
if nothing that the others can reach has changed.  The rules for putting operations together are
stated once here: what has been obtained by one step counts among the references of the others while
the next one runs.
-/

namespace ObjectRuntime

open Heap (Becomes Intact Owned)

variable {κ α β : Type} {P : κ → Prop} {w w' w'' : World κ}
  {others held held' mine keeps ids : List ObjId}
  {id : ObjId} {c : ObjectClass} {r : Ref} {payload : Payload κ}

/-! ## Worlds -/

namespace World

/-- Worlds with the same objects have the same contents. -/
theorem payload?_of_heap (hheap : w'.heap = w.heap) (id : ObjId) :
    w'.payload? id = w.payload? id := by
  rw [World.payload?, World.payload?, hheap]

/-- A content that there may be: the class of a container has been looked up, and the code of a
function is admitted. -/
def Allows (P : κ → Prop) (w : World κ) : Payload κ → Prop
  | .array _ => ∃ i, w.types.classIndex? .array = some i
  | .map _ => ∃ i, w.types.classIndex? .map = some i
  | .function code _ => P code
  | _ => True

theorem Allows.of_known {content : Payload κ} (h : w.Allows P content)
    (hknown : ∀ {c i}, w.types.classIndex? c = some i → w'.types.classIndex? c = some i) :
    w'.Allows P content := by
  cases content with
  | array | map =>
      obtain ⟨i, hi⟩ := h
      exact ⟨i, hknown hi⟩
  | function => exact h
  | _ => trivial

/-- Every reference is counted, and there are only contents that there may be. -/
structure Balanced (P : κ → Prop) (w : World κ) (held : List ObjId) : Prop where
  owned : w.heap.Owned held
  allowed : ∀ {id content}, w.payload? id = some content → w.Allows P content

/-- What may have happened meanwhile, as others see it. -/
structure Since (w : World κ) (others : List ObjId) (w' : World κ) : Prop where
  becomes : Becomes w.heap w'.heap
  intact : Intact others w.heap w'.heap
  known : ∀ {c i}, w.types.classIndex? c = some i → w'.types.classIndex? c = some i

namespace Since

theorem refl (w : World κ) (others : List ObjId) : Since w others w := ⟨.refl, .refl _ _, id⟩

theorem trans (h : Since w others w') (h' : Since w' others w'') : Since w others w'' :=
  ⟨h.becomes.trans h'.becomes, h.intact.trans h'.intact, fun hc => h'.known (h.known hc)⟩

/-- Those who hold less see less. -/
theorem mono (h : Since w others w') (hsub : ∀ x ∈ held, x ∈ others) : Since w held w' :=
  ⟨h.becomes, h.intact.mono hsub, h.known⟩

theorem of_append (h : Since w (held ++ others) w') : Since w others w' :=
  h.mono fun _ hx => List.mem_append_right _ hx

theorem reachable (h : Since w others w') {x : ObjId} (hx : w.heap.Reachable others x) :
    w'.heap.Reachable others x := h.intact.reachable hx

/-- The contents of the others are as they were. -/
theorem payload? (h : Since w others w') {x : ObjId} (hb : w.Balanced P held)
    (hx : w.heap.Reachable others x) (hsub : ∀ x ∈ others, x ∈ held) :
    w'.payload? x = w.payload? x := by
  obtain ⟨o, ho⟩ := hb.owned.alive_of_reachable (hx.mono hsub)
  obtain ⟨n, hn⟩ := h.intact x o hx ho
  simp only [World.payload?, ho, hn, Option.map_some]

end Since

theorem Balanced.perm (hb : w.Balanced P held) (hp : List.Perm held' held) : w.Balanced P held' :=
  ⟨hb.owned.perm hp, hb.allowed⟩

/-- A world without objects is balanced. -/
theorem Balanced.of_empty (hempty : w.heap = .empty) : w.Balanced P [] := by
  refine ⟨hempty ▸ Heap.Owned.empty, fun {id content} hcontent => ?_⟩
  simp [World.payload?, hempty, Heap.get?, Heap.empty] at hcontent

/-- Where there is an array there may be another. -/
theorem Balanced.allows_array {elems : List Ref} (hb : w.Balanced P held)
    (hcontent : w.payload? id = some (.array elems)) (elems' : List Ref) :
    w.Allows P (.array elems') := by
  have h := hb.allowed hcontent
  exact h

/-- Where there is a map there may be another. -/
theorem Balanced.allows_map {entries : List (Ref × Ref)} (hb : w.Balanced P held)
    (hcontent : w.payload? id = some (.map entries)) (entries' : List (Ref × Ref)) :
    w.Allows P (.map entries') := by
  have h := hb.allowed hcontent
  exact h

theorem Balanced.alive (hb : w.Balanced P held) {x : ObjId} (hx : w.heap.Reachable held x) :
    ∃ o, w.heap.get? x = some o := hb.owned.alive_of_reachable hx

/-- A world in which nothing but counts has changed and nothing has been made is balanced as soon as
its heap is. -/
theorem Balanced.of_shrunk (hb : w.Balanced P held) (hg : Heap.Grown w'.heap w.heap)
    (htypes : w'.types = w.types) (howned : w'.heap.Owned held') : w'.Balanced P held' := by
  have hpayload : ∀ {x content}, w'.payload? x = some content → w.payload? x = some content := by
    intro x content hcontent
    obtain ⟨o, ho, rfl⟩ := Option.map_eq_some_iff.mp hcontent
    obtain ⟨n, hn⟩ := hg x o ho
    simp only [World.payload?, hn, Option.map_some]
  exact ⟨howned, fun hcontent => (hb.allowed (hpayload hcontent)).of_known fun hc => htypes ▸ hc⟩

end World

open World (Balanced Since)

/-! ## Operations -/

namespace Run

variable {gives : α → List ObjId} {gives' : β → List ObjId}

/-- The operation ends with the references that it gives to its caller, or with others if it fails;
all are counted, and others find everything as it was. -/
structure Conserves (P : κ → Prop) (w : World κ) (others : List ObjId) (gives : α → List ObjId)
    (keeps : List ObjId) (x : Run κ α) : Prop where
  ok : ∀ a w', x w = (.ok a, w') → Since w others w' ∧ w'.Balanced P (gives a ++ others)
  error : ∀ fault w', x w = (.error fault, w') → Since w others w' ∧ w'.Balanced P (keeps ++ others)

theorem conserves_pure {a : α} (hb : w.Balanced P (gives a ++ others)) :
    Conserves P w others gives keeps (pure a) :=
  ⟨fun _ _ h => by cases h; exact ⟨.refl w others, hb⟩, fun _ _ h => nomatch h⟩

theorem conserves_throw {fault : Fault} (hb : w.Balanced P (keeps ++ others)) :
    Conserves P w others gives keeps (throw fault) :=
  ⟨fun _ _ h => (nomatch h), fun _ _ h => by cases h; exact ⟨.refl w others, hb⟩⟩

/-- One step after another. -/
theorem Conserves.bind {x : Run κ α} {f : α → Run κ β} (hx : Conserves P w others gives keeps x)
    (hf : ∀ a w', x w = (.ok a, w') → Since w others w' → w'.Balanced P (gives a ++ others) →
      Conserves P w' others gives' keeps (f a)) :
    Conserves P w others gives' keeps (x >>= f) := by
  rcases hrun : x w with ⟨fault | a, w₁⟩
  · refine ⟨fun b w' h => ?_, fun fault' w' h => ?_⟩
    · rw [run_bind_of_error hrun] at h
      cases h
    · rw [run_bind_of_error hrun] at h
      cases h
      exact hx.error _ _ hrun
  · obtain ⟨hsince, hb⟩ := hx.ok _ _ hrun
    have hrest := hf a w₁ hrun hsince hb
    refine ⟨fun b w' h => ?_, fun fault' w' h => ?_⟩
    · rw [run_bind_of_ok hrun] at h
      exact (hrest.ok _ _ h).imp_left hsince.trans
    · rw [run_bind_of_ok hrun] at h
      exact (hrest.error _ _ h).imp_left hsince.trans

theorem Conserves.map {x : Run κ α} {f : α → β} (hx : Conserves P w others gives keeps x)
    (hgives : ∀ a, gives' (f a) = gives a) : Conserves P w others gives' keeps (f <$> x) := by
  rw [map_eq_pure_bind]
  refine hx.bind fun a w' _ _ hb => conserves_pure ?_
  rw [hgives]
  exact hb

/-- The world is read. -/
theorem conserves_get {f : World κ → Run κ β} (hf : Conserves P w others gives' keeps (f w)) :
    Conserves P w others gives' keeps (get >>= f) := ⟨hf.ok, hf.error⟩

/-- The caller holds references that the operation leaves to the others. -/
theorem Conserves.claim {x : Run κ α} (h : Conserves P w (held ++ others) gives keeps x) :
    Conserves P w others (fun a => gives a ++ held) (keeps ++ held) x := by
  refine ⟨fun a w' hx => ?_, fun fault w' hx => ?_⟩
  · rw [List.append_assoc]
    exact (h.ok a w' hx).imp_left Since.of_append
  · rw [List.append_assoc]
    exact (h.error fault w' hx).imp_left Since.of_append

/-- Only what happens in the world at hand counts. -/
theorem Conserves.congr {x y : Run κ α} (h : Conserves P w others gives keeps x) (heq : y w = x w) :
    Conserves P w others gives keeps y :=
  ⟨fun a w' hy => h.ok a w' (heq ▸ hy), fun fault w' hy => h.error fault w' (heq ▸ hy)⟩

/-- What is kept if an operation fails does not matter if it does not fail. -/
theorem Conserves.of_succeeds {x : Run κ α} (h : Conserves P w others gives keeps x)
    (hsucceeds : ∃ a w', x w = (.ok a, w')) (keeps' : List ObjId) :
    Conserves P w others gives keeps' x := by
  obtain ⟨a, w', hx⟩ := hsucceeds
  refine ⟨h.ok, fun fault w'' hfault => ?_⟩
  rw [hx] at hfault
  cases hfault

/-- References may be given in any order. -/
theorem Conserves.perm {x : Run κ α} {gives₂ : α → List ObjId} {keeps₂ : List ObjId}
    (h : Conserves P w others gives keeps x)
    (hgives : ∀ a w', x w = (.ok a, w') → List.Perm (gives₂ a) (gives a))
    (hkeeps : List.Perm keeps₂ keeps) : Conserves P w others gives₂ keeps₂ x := by
  refine ⟨fun a w' hx => ?_, fun fault w' hx => ?_⟩
  · exact (h.ok a w' hx).imp_right fun hb => hb.perm ((hgives a w' hx).append_right _)
  · exact (h.error fault w' hx).imp_right fun hb => hb.perm (hkeeps.append_right _)

/-! ## Operations that leave the objects alone -/

/-- The operation at most looks classes up. -/
def Quiet (x : Run κ α) : Prop :=
  ∀ w : World κ, (x w).2.heap = w.heap ∧
    ∀ {c i}, w.types.classIndex? c = some i → (x w).2.types.classIndex? c = some i

theorem quiet_pure (a : α) : Quiet (pure a : Run κ α) := fun _ => ⟨rfl, id⟩

theorem quiet_throw (fault : Fault) : Quiet (throw fault : Run κ α) := fun _ => ⟨rfl, id⟩

theorem quiet_fail (cause : Error) : Quiet (fail cause : Run κ α) := quiet_throw _

theorem Quiet.bind {x : Run κ α} {f : α → Run κ β} (hx : Quiet x) (hf : ∀ a, Quiet (f a)) :
    Quiet (x >>= f) := by
  intro w
  obtain ⟨hheap, hknown⟩ := hx w
  rcases hrun : x w with ⟨fault | a, w₁⟩
  · rw [run_bind_of_error hrun]
    rw [hrun] at hheap hknown
    exact ⟨hheap, hknown⟩
  · rw [run_bind_of_ok hrun]
    rw [hrun] at hheap hknown
    obtain ⟨hheap', hknown'⟩ := hf a w₁
    exact ⟨hheap'.trans hheap, fun hc => hknown' (hknown hc)⟩

theorem quiet_get {f : World κ → Run κ β} (hf : ∀ w, Quiet (f w)) : Quiet (get >>= f) :=
  fun w => hf w w

theorem quiet_touch (c : ObjectClass) : Quiet (touch c : Run κ Nat) :=
  fun _ => ⟨rfl, TypeTable.classIndex?_touch⟩

/-- A class that has been looked up is known. -/
theorem known_of_touch {first : Nat} (htouch : touch c w = (.ok first, w')) :
    w'.types.classIndex? c = some first := by
  obtain ⟨hanswer, rfl⟩ := Prod.mk.inj htouch
  exact (TypeTable.known_touch w.types c).2 first hanswer

theorem quiet_ofExcept (x : Except Error α) : Quiet (ofExcept x : Run κ α) := by
  cases x with
  | ok a => exact quiet_pure a
  | error cause => exact quiet_fail cause

theorem ofExcept_eq_ok {x : Except Error α} {a : α} :
    ofExcept x w = (.ok a, w') ↔ x = .ok a ∧ w' = w := by
  cases x with
  | ok b =>
      constructor
      · intro h
        cases h
        exact ⟨rfl, rfl⟩
      · rintro ⟨h, rfl⟩
        cases h
        rfl
  | error cause =>
      constructor
      · intro h
        cases h
      · rintro ⟨h, -⟩
        cases h

theorem quiet_forM {f : α → Run κ Unit} (hf : ∀ a, Quiet (f a)) :
    ∀ as : List α, Quiet (as.forM f)
  | [] => quiet_pure ()
  | a :: as => (hf a).bind fun _ => quiet_forM hf as

theorem quiet_askClasses (id : ObjId) : ∀ cs, Quiet (askClasses id cs : Run κ Unit)
  | [] => quiet_pure ()
  | c :: cs => by
      refine (quiet_touch c).bind fun _ => quiet_get fun w => ?_
      split
      · exact quiet_askClasses id cs
      · exact quiet_pure ()

theorem quiet_askWhile {ask : α → Run κ Unit} (hask : ∀ a, Quiet (ask a))
    (passes : World κ → α → Bool) : ∀ as, Quiet (askWhile ask passes as)
  | [] => quiet_pure ()
  | a :: as => by
      refine (hask a).bind fun _ => quiet_get fun w => ?_
      split
      · exact quiet_askWhile hask passes as
      · exact quiet_pure ()

theorem quiet_askType (t : RefType) (r : Ref) : Quiet (askType t r : Run κ Unit) := by
  induction t generalizing r with
  | named name cls =>
      cases r with
      | none => exact quiet_pure ()
      | some id => exact quiet_askClasses id _
  | array elem ih =>
      cases r with
      | none => exact quiet_pure ()
      | some id =>
          exact (quiet_askClasses id _).bind fun _ => quiet_get fun w => quiet_askWhile ih _ _
  | map key value ihKey ihValue =>
      cases r with
      | none => exact quiet_pure ()
      | some id =>
          refine (quiet_askClasses id _).bind fun _ => quiet_get fun w => quiet_askWhile ?_ _ _
          refine fun e => (ihKey e.1).bind fun _ => quiet_get fun w => ?_
          split
          · exact ihValue e.2
          · exact quiet_pure ()

theorem quiet_askKey (key : Ref) : Quiet (askKey key : Run κ Unit) := by
  cases key with
  | none => exact quiet_pure ()
  | some id => exact quiet_askClasses id _

theorem quiet_travel (r : Ref) (moved : Bool) : Quiet (travel r moved : Run κ Value) := by
  cases r with
  | none => exact quiet_get fun w => quiet_pure _
  | some id => exact (quiet_askClasses id _).bind fun _ => quiet_get fun w => quiet_pure _

theorem quiet_query (f : World κ → Except Error α) : Quiet (query f) :=
  quiet_get fun w => quiet_ofExcept (f w)

theorem quiet_queryAsking (cs : List ObjectClass) (v : Value) (f : World κ → Except Error α) :
    Quiet (queryAsking cs v f) := by
  unfold queryAsking
  split
  · exact (quiet_askClasses _ cs).bind fun _ => quiet_query f
  · exact quiet_query f

theorem quiet_downcast (t : RefType) (r : Ref) : Quiet (downcast t r : Run κ Ref) :=
  (quiet_askType t r).bind fun _ => quiet_query _

/-- A reference that passes a check is passed on. -/
theorem eq_of_downcast {t : RefType} {r' : Ref} (hrun : downcast t r w = (.ok r', w')) : r' = r := by
  obtain ⟨_, w₁, -, hrun⟩ := run_bind_eq_ok.mp hrun
  obtain ⟨_, _, hget, hrun⟩ := run_bind_eq_ok.mp hrun
  cases hget
  cases hmismatch : w₁.mismatch? t r with
  | none =>
      simp only [World.downcast, hmismatch] at hrun
      cases hrun
      rfl
  | some m =>
      simp only [World.downcast, hmismatch] at hrun
      cases hrun

theorem quiet_useReflection : Quiet (useReflection : Run κ Unit) :=
  quiet_forM (fun s : Schema => (quiet_touch s.cls).bind fun _ => quiet_pure ()) Schema.builtins

/-- Only the classes that are known differ after a quiet operation. -/
theorem Quiet.since {x : Run κ α} (hx : Quiet x) (w : World κ) (others : List ObjId) :
    Since w others (x w).2 := by
  obtain ⟨hheap, hknown⟩ := hx w
  exact ⟨hheap ▸ .refl, hheap ▸ .refl _ _, hknown⟩

theorem Quiet.balanced {x : Run κ α} (hx : Quiet x) (hb : w.Balanced P held) :
    (x w).2.Balanced P held := by
  obtain ⟨hheap, hknown⟩ := hx w
  refine ⟨hheap ▸ hb.owned, fun {id content} hcontent => ?_⟩
  rw [World.payload?_of_heap hheap] at hcontent
  exact (hb.allowed hcontent).of_known hknown

theorem Quiet.conserves {x : Run κ α} (hx : Quiet x) (mine : List ObjId)
    (hb : w.Balanced P (mine ++ others)) :
    Conserves P w others (fun _ => mine) mine x := by
  have hsince := hx.since w others
  have hbalanced := hx.balanced hb
  refine ⟨fun a w' hrun => ?_, fun fault w' hrun => ?_⟩
  · rw [hrun] at hsince hbalanced
    exact ⟨hsince, hbalanced⟩
  · rw [hrun] at hsince hbalanced
    exact ⟨hsince, hbalanced⟩

/-- A quiet step keeps what is held for the next one. -/
theorem Quiet.then_conserves {x : Run κ α} {f : α → Run κ β} (hx : Quiet x) (keeps : List ObjId)
    (hb : w.Balanced P (keeps ++ others))
    (hf : ∀ a w', x w = (.ok a, w') → w'.heap = w.heap → Since w others w' →
      w'.Balanced P (keeps ++ others) → Conserves P w' others gives' keeps (f a)) :
    Conserves P w others gives' keeps (x >>= f) :=
  (hx.conserves keeps hb).bind fun a w' hrun hsince hb' =>
    hf a w' hrun (by have := (hx w).1; rwa [hrun] at this) hsince hb'

/-! ## References -/

/-- Changing the heap only. -/
theorem conserves_modifyHeap {f : Heap κ → Heap κ} {give : List ObjId}
    (hbecomes : Becomes w.heap (f w.heap)) (hintact : Intact others w.heap (f w.heap))
    (hb : ({ w with heap := f w.heap } : World κ).Balanced P (give ++ others)) :
    Conserves P w others (fun _ => give) keeps (modifyHeap f) :=
  ⟨fun _ _ h => by cases h; exact ⟨⟨hbecomes, hintact, id⟩, hb⟩, fun _ _ h => nomatch h⟩

/-- Changing counts only. -/
theorem conserves_retain (mine keeps : List ObjId) (hb : w.Balanced P (mine ++ others))
    (hid : w.heap.Reachable (mine ++ others) id) :
    Conserves P w others (fun _ => id :: mine) keeps (retain id) := by
  obtain ⟨o, ho⟩ := hb.alive hid
  exact conserves_modifyHeap (Heap.becomes_retain _ _) (.of_grown (Heap.grown_retain _ _))
    (hb.of_shrunk (Heap.grown_of_retain ho) rfl (hb.owned.retain ho))

theorem conserves_retainAll (mine keeps : List ObjId) (hb : w.Balanced P (mine ++ others))
    (hids : ∀ x ∈ ids, w.heap.Reachable (mine ++ others) x) :
    Conserves P w others (fun _ => ids ++ mine) keeps (modifyHeap (·.retainAll ids)) := by
  have halive : ∀ x ∈ ids, ∃ o, w.heap.get? x = some o := fun x hx => hb.alive (hids x hx)
  have howned := hb.owned.retainAll halive
  rw [← List.append_assoc] at howned
  refine conserves_modifyHeap (Heap.becomes_retainAll _ _) (.of_grown (Heap.grown_retainAll _ _)) ?_
  exact hb.of_shrunk (Heap.grown_of_retainAll halive) rfl howned

theorem conserves_releases (mine keeps : List ObjId) (hb : w.Balanced P (ids ++ (mine ++ others))) :
    Conserves P w others (fun _ => mine) keeps (releaseAll ids) := by
  have hgrown := Heap.grown_of_releases w.heap ids
  have howned : (ids.foldl Heap.release w.heap).Owned (mine ++ others) := hb.owned.releases
  refine conserves_modifyHeap (Heap.becomes_releases _ _) ?_
    (hb.of_shrunk hgrown rfl howned)
  exact (Intact.of_shrunk hgrown howned).mono fun _ hx => List.mem_append_right _ hx

theorem conserves_release (mine keeps : List ObjId) (hb : w.Balanced P (id :: (mine ++ others))) :
    Conserves P w others (fun _ => mine) keeps (release id) :=
  conserves_releases mine keeps (show w.Balanced P ([id] ++ (mine ++ others)) from hb)

theorem conserves_retainRef (mine keeps : List ObjId) (hb : w.Balanced P (mine ++ others))
    (hr : ∀ id, r = some id → w.heap.Reachable (mine ++ others) id) :
    Conserves P w others (fun _ => r.toList ++ mine) keeps (retainRef r) := by
  cases r with
  | none => exact conserves_pure hb
  | some id => exact conserves_retain mine keeps hb (hr id rfl)

/-- Giving references up at the end. -/
theorem released (hsince : Since w (ids ++ others) w')
    (hb : w'.Balanced P (mine ++ (ids ++ others))) :
    Since w others { w' with heap := ids.foldl Heap.release w'.heap } ∧
      ({ w' with heap := ids.foldl Heap.release w'.heap } : World κ).Balanced P (mine ++ others) := by
  obtain ⟨hreleased, hb'⟩ := (conserves_releases mine []
    (hb.perm (List.perm_append_comm_assoc _ _ _))).ok () _ rfl
  exact ⟨hsince.of_append.trans hreleased, hb'⟩

/-- An operation that succeeds is not affected by what would be given up. -/
theorem releasingOnFault_eq_ok {x : Run κ α} {a : α} :
    releasingOnFault ids x w = (.ok a, w') ↔ x w = (.ok a, w') := by
  simp only [Run.releasingOnFault, onFault]
  rcases x w with ⟨fault | b, w₁⟩
  · constructor <;> intro h <;> cases h
  · rfl

/-- The references of one step are given up if it fails. -/
theorem Conserves.releasingOnFault {x : Run κ α}
    (h : Conserves P w (ids ++ others) gives keeps x) :
    Conserves P w others (fun a => gives a ++ ids) keeps (releasingOnFault ids x) := by
  refine ⟨fun a w' hrun => ?_, fun fault w' hrun => ?_⟩
  · rw [List.append_assoc]
    exact (h.ok _ _ (releasingOnFault_eq_ok.mp hrun)).imp_left Since.of_append
  · simp only [Run.releasingOnFault, onFault] at hrun
    rcases hx : x w with ⟨fault₁ | a, w₁⟩
    all_goals rw [hx] at hrun; cases hrun
    obtain ⟨hsince, hb⟩ := h.error _ _ hx
    exact released hsince hb

/-- The references of one step are given up afterwards. -/
theorem Conserves.releasing {x : Run κ α} (h : Conserves P w (ids ++ others) gives keeps x) :
    Conserves P w others gives keeps (releasing ids x) := by
  refine ⟨fun a w' hrun => ?_, fun fault w' hrun => ?_⟩
  all_goals simp only [Run.releasing, andFinally] at hrun; rcases hx : x w with ⟨fault₁ | a₁, w₁⟩
  all_goals rw [hx] at hrun; cases hrun
  · obtain ⟨hsince, hb⟩ := h.ok _ _ hx
    exact released hsince hb
  · obtain ⟨hsince, hb⟩ := h.error _ _ hx
    exact released hsince hb

/-- References are held over a quiet step, and given up if it fails. -/
theorem Quiet.holding {x : Run κ α} (hx : Quiet x) (ids : List ObjId)
    (hb : w.Balanced P (ids ++ others)) :
    Conserves P w others (fun _ => ids) [] (releasingOnFault ids x) :=
  (hx.conserves [] hb).releasingOnFault

/-! ## New objects -/

/-- A content may go into a new object of a class. -/
def Suits (P : κ → Prop) (c : ObjectClass) : Payload κ → Prop
  | .array _ => c = .array
  | .map _ => c = .map
  | .function code _ => P code
  | _ => True

/-- It is allowed once the class has been looked up. -/
theorem Suits.allows {first : Nat} (hsuits : Suits P c payload)
    (hc : w.types.classIndex? c = some first) : w.Allows P payload := by
  cases payload with
  | array => exact ⟨first, (show c = .array from hsuits) ▸ hc⟩
  | map => exact ⟨first, (show c = .map from hsuits) ▸ hc⟩
  | function => exact hsuits
  | _ => trivial

/-- A new object takes over the references in its content. -/
theorem balanced_alloc {first : Nat} (hb : w.Balanced P (payload.references ++ held))
    (hsuits : Suits P c payload) (hc : w.types.classIndex? c = some first) :
    ({ w with heap := (w.heap.alloc first payload).1 } : World κ).Balanced P
      (⟨w.heap.cells.size⟩ :: held) := by
  have hpayload : ∀ {x content},
      ((w.heap.alloc first payload).1.get? x).map Object.payload = some content →
        content = payload ∨ w.payload? x = some content := by
    intro x content hcontent
    rw [Heap.get?_alloc] at hcontent
    split_ifs at hcontent
    · exact .inl (Option.some.inj hcontent).symm
    · exact .inr hcontent
  refine ⟨hb.owned.alloc, fun hcontent => ?_⟩
  rcases hpayload hcontent with rfl | hold
  · exact hsuits.allows hc
  · exact hb.allowed hold

/-- Content that has not become an object gives its references up. -/
theorem discarded (hb : w.Balanced P (payload.references ++ (mine ++ others))) :
    Since w others { w with heap := w.heap.discard payload } ∧
      ({ w with heap := w.heap.discard payload } : World κ).Balanced P (mine ++ others) := by
  have hgrown : Heap.Grown (w.heap.discard payload) w.heap :=
    Heap.grown_of_releases (w.heap.runHooks payload) payload.references
  have howned : (w.heap.discard payload).Owned (mine ++ others) := hb.owned.discard
  refine ⟨⟨Heap.becomes_discard _ _, ?_, id⟩, hb.of_shrunk hgrown rfl howned⟩
  exact (Intact.of_shrunk hgrown howned).mono fun _ hx => List.mem_append_right _ hx

/-- A new object is made once its class has been looked up. -/
theorem create_of_touch {first : Nat} (htouch : touch c w = (.ok first, w')) :
    create c payload w = (.ok ⟨w'.heap.cells.size⟩,
      { w' with heap := (w'.heap.alloc first payload).1 }) := by
  have hlook : onFault (touch c) (fun w => { w with heap := w.heap.discard payload }) w =
      (.ok first, w') := by simp only [onFault, htouch]
  rw [create, run_bind_of_ok hlook]
  rfl

theorem create_of_untouched {fault : Fault} (htouch : touch c w = (.error fault, w')) :
    create c payload w = (.error fault, { w' with heap := w'.heap.discard payload }) := by
  rw [create, run_bind_of_error]
  simp only [onFault, htouch]

/-- An object that has been made stands at the end of the heap. -/
theorem create_inv (hrun : create c payload w = (.ok id, w')) :
    ∃ first w₁, touch c w = (.ok first, w₁) ∧ w₁.heap = w.heap ∧
      w₁.types.classIndex? c = some first ∧ id = ⟨w.heap.cells.size⟩ ∧
      w' = { w₁ with heap := (w.heap.alloc first payload).1 } := by
  have hheap := (quiet_touch c w).1
  rcases htouch : touch c w with ⟨fault | first, w₁⟩
  all_goals rw [htouch] at hheap
  · rw [create_of_untouched htouch] at hrun
    cases hrun
  · rw [create_of_touch htouch] at hrun
    cases hrun
    refine ⟨first, w₁, rfl, hheap, known_of_touch htouch, ?_, ?_⟩
    · rw [hheap]
    · rw [hheap]

/-- A new object takes over the references in its content.  They are given up if it cannot be
made. -/
theorem conserves_create (mine : List ObjId)
    (hb : w.Balanced P (payload.references ++ (mine ++ others)))
    (hsuits : Suits P c payload) :
    Conserves P w others (fun id => id :: mine) mine (create c payload) := by
  have hsince := (quiet_touch c).since w others
  have hbalanced := (quiet_touch c).balanced hb
  rcases htouch : touch c w with ⟨fault | first, w₁⟩
  all_goals rw [htouch] at hsince hbalanced
  · refine ⟨fun id w' h => ?_, fun fault' w' h => ?_⟩
    all_goals rw [create_of_untouched htouch] at h; cases h
    exact (discarded hbalanced).imp_left hsince.trans
  · refine ⟨fun id w' h => ?_, fun fault' w' h => ?_⟩
    all_goals rw [create_of_touch htouch] at h; cases h
    refine ⟨hsince.trans ⟨Heap.becomes_alloc _ _ _, .of_grown (Heap.grown_alloc _ _ _), id⟩, ?_⟩
    exact balanced_alloc hbalanced hsuits (known_of_touch htouch)

/-! ## Loops -/

/-- Each result holds the references that it owns while the next ones are made. -/
theorem conserves_mapOwned {owned : β → List ObjId} {f : α → Run κ β} :
    ∀ (as : List α) {w : World κ} {others : List ObjId}, w.Balanced P others →
      (∀ a ∈ as, ∀ w' held, Since w others w' → w'.Balanced P (held ++ others) →
        Conserves P w' (held ++ others) owned [] (f a)) →
      Conserves P w others (fun bs => bs.flatMap owned) [] (mapOwned owned f as)
  | [], _, _, hb, _ => conserves_pure hb
  | a :: as, w, others, hb, hstep => by
      refine (hstep a List.mem_cons_self w [] (.refl w others) hb).bind fun b w₁ _ hsince hb₁ => ?_
      have hrest : Conserves P w₁ (owned b ++ others) (fun bs => bs.flatMap owned) []
          (mapOwned owned f as) := by
        refine conserves_mapOwned as hb₁ fun a' ha' w₂ held hsince₂ hb₂ => ?_
        rw [← List.append_assoc] at hb₂ ⊢
        exact hstep a' (List.mem_cons_of_mem a ha') w₂ _ (hsince.trans hsince₂.of_append) hb₂
      refine hrest.releasingOnFault.bind fun bs w₂ _ _ hb₂ => conserves_pure ?_
      exact hb₂.perm (List.perm_append_comm.append_right others)

/-- References are added one after another. -/
theorem forM_retainRef (rs : List Ref) :
    (rs.forM retainRef : Run κ Unit) = modifyHeap (·.retainAll rs.reduceOption) := by
  induction rs with
  | nil => rfl
  | cons r rs ih =>
      rw [List.forM, ih]
      cases r with
      | none => rfl
      | some id => rfl

end Run

end ObjectRuntime
