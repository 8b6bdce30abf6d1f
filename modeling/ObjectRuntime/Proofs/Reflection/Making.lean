import ObjectRuntime.Proofs.NameTable
import ObjectRuntime.Proofs.Object.Conversion
import ObjectRuntime.Proofs.Reflection.Building
set_option autoImplicit false

/-!
# Making objects conserves references

While an object is made all references that have been obtained are held, whether or not the next
step fails (`Build.Holds`), and a new object takes references of its own to what is held.  So at the
end the caller has the new object, or nothing is left of it.
-/

namespace ObjectRuntime

open Run (Conserves Quiet Borrowed)
open World (Balanced Since)

variable {κ α β σ : Type} {P : κ → Prop} {w w' : World κ} {others : List ObjId}

namespace Build

variable {s s' : BuildState} {refs : α → List ObjId} {refs' : β → List ObjId}

/-- Whatever is held stays held, all references are counted, and those in the result are held. -/
structure Holds (P : κ → Prop) (s : BuildState) (w : World κ) (others : List ObjId)
    (refs : α → List ObjId) (x : Build κ α) : Prop where
  since : Since w others (x s w).2
  balanced : (x s w).2.Balanced P ((x s w).1.2.held ++ others)
  grows : ∀ id ∈ s.held, id ∈ (x s w).1.2.held
  result : ∀ a, (x s w).1.1 = .ok a → ∀ id ∈ refs a, id ∈ (x s w).1.2.held

theorem holds_of_run {x : Build κ α} {answer : Except Fault α}
    (hrun : x s w = ((answer, s'), w')) (hsince : Since w others w')
    (hb : w'.Balanced P (s'.held ++ others)) (hgrows : ∀ id ∈ s.held, id ∈ s'.held)
    (hresult : ∀ a, answer = .ok a → ∀ id ∈ refs a, id ∈ s'.held) :
    Holds P s w others refs x :=
  ⟨by rw [hrun]; exact hsince, by rw [hrun]; exact hb, by rw [hrun]; exact hgrows,
    by rw [hrun]; exact hresult⟩

theorem holds_pure {a : α} (hb : w.Balanced P (s.held ++ others))
    (ha : ∀ id ∈ refs a, id ∈ s.held) : Holds P s w others refs (pure a) :=
  holds_of_run rfl (.refl w others) hb (fun _ hid => hid) fun b heq => by cases heq; exact ha

theorem holds_fail {cause : Error} (hb : w.Balanced P (s.held ++ others)) :
    Holds P s w others refs (fail cause) :=
  holds_of_run rfl (.refl w others) hb (fun _ hid => hid) fun b heq => by cases heq

/-- A sequence fails where its first part does. -/
theorem bind_of_error {x : Build κ α} {f : α → Build κ β} {fault : Fault}
    (hx : x s w = ((.error fault, s'), w')) : (x >>= f) s w = ((.error fault, s'), w') := by
  simp only [bind, ExceptT.bind, ExceptT.mk, StateT.bind, hx]
  rfl

theorem Holds.bind {x : Build κ α} {f : α → Build κ β} (hx : Holds P s w others refs x)
    (hf : ∀ a s' w', Since w others w' → w'.Balanced P (s'.held ++ others) →
      (∀ id ∈ s.held, id ∈ s'.held) → (∀ id ∈ refs a, id ∈ s'.held) →
        Holds P s' w' others refs' (f a)) :
    Holds P s w others refs' (x >>= f) := by
  obtain ⟨hsince, hb, hgrows, hresult⟩ := hx
  rcases hrun : x s w with ⟨⟨fault | a, s₁⟩, w₁⟩
  all_goals rw [hrun] at hsince hb hgrows hresult
  · exact holds_of_run (bind_of_error hrun) hsince hb hgrows fun b heq => by cases heq
  · obtain ⟨hsince', hb', hgrows', hresult'⟩ := hf a s₁ w₁ hsince hb hgrows (hresult a rfl)
    exact holds_of_run (bind_of_ok hrun) (hsince.trans hsince') hb'
      (fun id hid => hgrows' id (hgrows id hid)) hresult'

/-! ## Parts -/

/-- A failure of an operation on the world is one of the whole. -/
theorem ofRun_of_error {x : Run κ α} {fault : Fault} (hrun : x w = (.error fault, w')) :
    ofRun x s w = ((.error fault, s), w') := by
  simp only [ofRun, hrun]

/-- An operation on the world that makes nothing. -/
theorem holds_ofRun {x : Run κ α} (h : Conserves P w (s.held ++ others) (fun _ => []) [] x) :
    Holds P s w others (fun _ => []) (ofRun x) := by
  rcases hrun : x w with ⟨fault | a, w₁⟩
  · obtain ⟨hsince, hb⟩ := h.error _ _ hrun
    exact holds_of_run (ofRun_of_error hrun) hsince.of_append hb (fun _ hid => hid)
      fun _ _ _ hid => nomatch hid
  · obtain ⟨hsince, hb⟩ := h.ok _ _ hrun
    exact holds_of_run (ofRun_of_ok hrun) hsince.of_append hb (fun _ hid => hid)
      fun _ _ _ hid => nomatch hid

/-- The references in what an operation on the world makes are held. -/
theorem holds_taking {x : Run κ α} {owned : α → List ObjId} {f : α → β}
    (h : Conserves P w (s.held ++ others) owned [] x)
    (hf : ∀ a, ∀ id ∈ refs' (f a), id ∈ owned a) :
    Holds P s w others refs' (do
      let a ← ofRun x
      hold (owned a)
      return f a) := by
  rcases hrun : x w with ⟨fault | a, w₁⟩
  · obtain ⟨hsince, hb⟩ := h.error _ _ hrun
    exact holds_of_run (bind_of_error (ofRun_of_error hrun)) hsince.of_append hb
      (fun _ hid => hid) fun b heq => by cases heq
  · obtain ⟨hsince, hb⟩ := h.ok _ _ hrun
    rw [← List.append_assoc] at hb
    exact holds_of_run (taking_of_ok hrun) hsince.of_append hb
      (fun _ hid => List.mem_append_right _ hid)
      fun b heq id hid => by cases heq; exact List.mem_append_left _ (hf a id hid)

theorem Holds.blame {typeKey key : String} {x : Build κ α} (h : Holds P s w others refs x) :
    Holds P s w others refs (Build.blame typeKey key x) := by
  obtain ⟨hsince, hb, hgrows, hresult⟩ := h
  rcases hrun : x s w with ⟨⟨(cause | cause) | a, s₁⟩, w₁⟩
  all_goals rw [hrun] at hsince hb hgrows hresult
  · have hbody : Build.blame typeKey key x s w =
        ((.error (.error (.attrConversion typeKey key cause)), s₁), w₁) := by
      simp only [Build.blame, hrun]
    exact holds_of_run hbody hsince hb hgrows fun a ha => by cases ha
  all_goals
    have hbody : Build.blame typeKey key x s w = x s w := by simp only [Build.blame, hrun]
    exact holds_of_run (hbody.trans hrun) hsince hb hgrows hresult

/-- A field shows no object but those that the member of its type refers to. -/
theorem mem_references_of_fieldValue {t : ValueType} {x : t.Carrier} {id : ObjId}
    (hid : (t.fieldValue x).object? = some id) : id ∈ t.references x := by
  induction t with
  | any =>
      simp only [ValueType.fieldValue, Run.object?_asResult] at hid
      exact Option.mem_toList.mpr hid
  | ref r =>
      cases x with
      | none => cases hid
      | some a => exact Option.mem_toList.mpr hid
  | option t ih =>
      cases x with
      | none => cases hid
      | some x => exact ih hid
  | variant a b iha ihb =>
      cases x with
      | inl x => exact iha hid
      | inr x => exact ihb hid
  | _ => cases hid

/-- The values of fields. -/
abbrev valueReferences (v : Value) : List ObjId := v.object?.toList

theorem holds_fieldOf {t : ValueType} {v : Value} (hb : w.Balanced P (s.held ++ others))
    (hv : Borrowed w others v) : Holds P s w others valueReferences (fieldOf t v) :=
  holds_taking (Run.conserves_decode t hb hv.append) fun _ _ hid =>
    mem_references_of_fieldValue (Option.mem_toList.mp hid)

/-- An object is made out of what is held. -/
theorem holds_make {c : ObjectClass} {payload : Payload κ} (hb : w.Balanced P (s.held ++ others))
    (hheld : ∀ id ∈ payload.references, id ∈ s.held) (hsuits : Run.Suits P c payload) :
    Holds P s w others Option.toList (make c payload) := by
  have hmake : Conserves P w (s.held ++ others) Option.toList [] (do
      Run.modifyHeap (·.retainAll payload.references)
      return some (← Run.create c payload)) := by
    have hreachable : ∀ x ∈ payload.references, w.heap.Reachable (s.held ++ others) x :=
      fun x hx => .of_mem (List.mem_append_left others (hheld x hx))
    refine (Run.conserves_retainAll [] [] hb hreachable).bind fun _ w₁ _ _ hb₁ => ?_
    rw [List.append_nil] at hb₁
    exact (Run.conserves_create [] hb₁ hsuits).map fun _ => rfl
  exact holds_taking hmake fun _ _ hid => hid

/-! ## Objects -/

/-- Values of fields that are read from attributes. -/
theorem holds_fieldsOf {typeKey : String} {read : ValueType → σ → Build κ Value} :
    ∀ (fields : List Field) {given : List (String × σ)} {s : BuildState} {w : World κ},
      w.Balanced P (s.held ++ others) →
      (∀ e ∈ given, ∀ t s' w', Since w others w' → w'.Balanced P (s'.held ++ others) →
        Holds P s' w' others valueReferences (read t e.2)) →
      Holds P s w others (·.filterMap Value.object?) (fieldsOf typeKey read fields given)
  | [], given, s, w, hb, _ => by
      rw [fieldsOf]
      split
      · exact holds_fail hb
      · exact holds_pure hb fun _ hid => nomatch hid
  | f :: fields, given, s, w, hb, hread => by
      rw [fieldsOf]
      cases hgiven : given.lookup f.key with
      | none => exact holds_fail hb
      | some a =>
          obtain ⟨before, after, hmem, -⟩ := List.lookup_eq_some_iff.mp hgiven
          have ha : (f.key, a) ∈ given := by rw [hmem]; simp
          refine (hread _ ha f.type s w (.refl w others) hb).blame.bind
            fun v s₁ w₁ hsince hb₁ hgrows hv => ?_
          refine (holds_fieldsOf fields hb₁ fun e he t s' w' hsince' hb' =>
            hread e (List.mem_of_mem_filter he) t s' w' (hsince.trans hsince') hb').bind
              fun vs s₂ w₂ _ hb₂ hgrows₂ hvs => ?_
          refine holds_pure hb₂ fun id hid => ?_
          obtain ⟨x, hx, hshown⟩ := List.mem_filterMap.mp hid
          rcases List.mem_cons.mp hx with rfl | hx
          · exact hgrows₂ id (hv id (Option.mem_toList.mpr hshown))
          · exact hvs id (List.mem_filterMap.mpr ⟨x, hx, hshown⟩)

theorem suits_payload (schema : Schema) (values : List Value) :
    Run.Suits P schema.cls (schema.payload values : Payload κ) := by
  rcases Schema.payload_cases (κ := κ) schema values with
    h | ⟨n, -, -, h⟩ | ⟨x, -, -, h⟩ | ⟨b, -, -, h⟩
  all_goals
    rw [h]
    trivial

theorem holds_object {typeKey : String} {read : ValueType → σ → Build κ Value}
    {given : List (String × σ)} (hb : w.Balanced P (s.held ++ others))
    (hread : ∀ e ∈ given, ∀ t s' w', Since w others w' → w'.Balanced P (s'.held ++ others) →
      Holds P s' w' others valueReferences (read t e.2)) :
    Holds P s w others Option.toList (object typeKey read given) := by
  refine (holds_ofRun ((Run.quiet_query _).conserves [] hb)).bind
    fun index s₁ w₁ hsince₁ hb₁ _ _ => ?_
  refine (holds_ofRun (Run.quiet_useReflection.conserves [] hb₁)).bind
    fun _ s₂ w₂ hsince₂ hb₂ _ _ => ?_
  have hworld : Holds P s₂ w₂ others (fun _ => []) (Build.world : Build κ (World κ)) :=
    holds_of_run rfl (.refl w₂ others) hb₂ (fun _ hid => hid) fun _ _ _ hid => nomatch hid
  refine hworld.bind fun v s₃ w₃ hsince₃ hb₃ _ _ => ?_
  split
  · exact holds_fail hb₃
  · rename_i schema _
    have hsince := (hsince₁.trans hsince₂).trans hsince₃
    refine (holds_fieldsOf schema.visible hb₃ fun e he t s' w' hsince' hb' =>
      hread e he t s' w' (hsince.trans hsince') hb').bind fun values s₄ w₄ _ hb₄ _ hvalues => ?_
    refine holds_make hb₄ ?_ (suits_payload schema values)
    rw [Schema.references_payload]
    exact hvalues

/-- At the end the caller has the new object, and all that was held is given up. -/
theorem Holds.run {body : Build κ Ref}
    (h : Holds P ⟨[], [], []⟩ w others Option.toList body) :
    Conserves P w others Option.toList [] (run body) := by
  obtain ⟨hsince, hb, -, hresult⟩ := h
  rcases hrun : body ⟨[], [], []⟩ w with ⟨⟨fault | r, s⟩, w₁⟩
  all_goals rw [hrun] at hsince hb hresult
  · have hbody : Build.run body w =
        (.error fault, { w₁ with heap := s.held.foldl Heap.release w₁.heap }) := by
      simp only [Build.run, hrun]
    refine ⟨fun a w' h => ?_, fun fault' w' h => ?_⟩
    all_goals rw [hbody] at h; cases h
    obtain ⟨hreleased, hb'⟩ := (Run.conserves_releases [] [] hb).ok () _ rfl
    exact ⟨hsince.trans hreleased, hb'⟩
  · have hbody : Build.run body w = (.ok r,
        { w₁ with heap := s.held.foldl Heap.release (w₁.heap.retainAll r.toList) }) := by
      simp only [Build.run, hrun]
    have hkept : Conserves P w₁ others (fun _ => r.toList) [] (do
        Run.modifyHeap (·.retainAll r.toList)
        Run.releaseAll s.held : Run κ Unit) := by
      refine (Run.conserves_retainAll s.held [] hb fun x hx =>
        .of_mem (List.mem_append_left _ (hresult r rfl x hx))).bind fun _ w₂ _ _ hb₂ => ?_
      refine Run.conserves_releases r.toList [] (hb₂.perm ?_)
      rw [← List.append_assoc]
      exact List.perm_append_comm.append_right others
    refine ⟨fun a w' h => ?_, fun fault' w' h => ?_⟩
    all_goals rw [hbody] at h; cases h
    obtain ⟨hkept, hb'⟩ := hkept.ok () _ rfl
    exact ⟨hsince.trans hkept, hb'⟩

end Build

/-- Making an object from values of its attributes. -/
theorem conserves_createObject {typeKey : String} {given : List (String × Value)}
    (hb : w.Balanced P others) (hgiven : ∀ e ∈ given, Borrowed w others e.2) :
    Conserves P w others Option.toList [] (createObject typeKey given) :=
  (Build.holds_object hb fun e he _ _ _ hsince hb' =>
    Build.holds_fieldOf hb' ((hgiven e (NameTable.mem_of_mem_ofList he)).since hsince)).run

/-! ## Attributes -/

namespace Reflection

variable {r : Ref} {key : String} {v : Value}

theorem quiet_look (r : Ref) : Quiet (look r : Run κ Unit) := by
  cases r with
  | none => exact Run.quiet_pure ()
  | some id =>
      refine Run.quiet_useReflection.bind fun _ => Run.quiet_get fun w => ?_
      refine Quiet.bind ?_ fun _ => Run.quiet_pure ()
      exact (Run.quiet_forM (fun id => Run.quiet_askClasses id _) _).bind fun _ => Run.quiet_pure _

/-- What an attribute shows is held by the object. -/
theorem refers_of_attr (hattr : w.attr r key = .ok v) {x : ObjId} (hx : v.object? = some x) :
    ∃ id, r = some id ∧ w.Refers id x := by
  cases r with
  | none => cases hattr
  | some id =>
      refine ⟨id, rfl, ?_⟩
      obtain ⟨_, hid, hattr⟩ := bind_eq_ok.mp hattr
      cases hid
      obtain ⟨attrs, hattrs, hattr⟩ := bind_eq_ok.mp hattr
      cases hfind : attrs.find? fun a => a.key == key with
      | none =>
          rw [hfind] at hattr
          cases hattr
      | some a =>
          rw [hfind] at hattr
          cases hattr
          have hshown : w.shown id = attrs := by simp [World.shown, hattrs, Except.toOption]
          exact World.refers_of_attr (hshown ▸ List.mem_of_find?_eq_some hfind) hx

/-- The value of an attribute is the caller's too. -/
theorem conserves_attr (hb : w.Balanced P others)
    (hr : ∀ id, r = some id → w.heap.Reachable others id) :
    Conserves P w others (·.object?.toList) [] (attr r key) := by
  refine (quiet_look r).then_conserves [] hb fun _ w₁ _ _ hsince hb₁ => ?_
  refine (Run.quiet_query _).then_conserves [] hb₁ fun v w₂ hrun hheap hsince₂ hb₂ => ?_
  obtain ⟨_, w₂', hget, hattr⟩ := run_bind_eq_ok.mp hrun
  cases hget
  obtain ⟨hattr, rfl⟩ := Run.ofExcept_eq_ok.mp hattr
  refine (Run.conserves_retainRef [] [] hb₂ fun x hx => ?_).bind fun _ w₃ _ _ hb₃ =>
    Run.conserves_pure (by simpa using hb₃)
  obtain ⟨id, rfl, content, hcontent, hmem⟩ := refers_of_attr hattr hx
  exact Run.reachable_of_payload (hsince.reachable (hr id rfl)) hcontent hmem

end Reflection

end ObjectRuntime
