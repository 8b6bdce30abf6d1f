import ObjectRuntime.Proofs.Container.Simulation
set_option autoImplicit false

/-!
# Containers have the semantics of values

Each operation of a program does with counted and shared objects what it does with values that share
nothing, and so does every sequence of operations: what a handle shows depends on what has been done
with this handle only.
-/

namespace ObjectRuntime.Handles

open World (Balanced Since)

variable {κ : Type} {P : κ → Prop} {w w' : World κ} {stamps : ObjId → Nat} {stamp : Nat}
  {others : List ObjId} {joint rest : Joint} {t key value elem : HandleType}
  {r a k m : Ref} {v u kv mv : PlainValue} {op : Operation}

/-- The operation tells with objects what it tells with values, and leaves handles that show the
values that it leaves. -/
def Operation.Agrees (P : κ → Prop) (others : List ObjId) (w : World κ) (stamp : Nat)
    (joint : Joint) (op : Operation) : Prop :=
  ∃ answer joint' stamps' w', op.run joint.refs w = (.ok (answer, Joint.refs joint'), w') ∧
    op.eval stamp joint.values = (answer, Joint.values joint') ∧
    Simulation P others w' stamps' (stamp + 1) joint'

namespace Operation

/-- An operation that leaves the handles as they are. -/
theorem agrees_of_same (answer : Output) (h : Simulation P others w' stamps stamp joint)
    (hrun : op.run joint.refs w = (.ok (answer, joint.refs), w'))
    (heval : op.eval stamp joint.values = (answer, joint.values)) :
    op.Agrees P others w stamp joint := ⟨answer, joint, stamps, w', hrun, heval, h.later⟩

/-- An operation that moves the first handle into the array behind it is left out unless the handle
has the type of the elements. -/
theorem agrees_beside_array (hop : op = push ∨ ∃ index, op = set index)
    (h : Simulation P others w stamps stamp joint)
    (hfirst : ∀ {elem r v a u rest}, joint = (elem, r, v) :: (.array elem, a, u) :: rest →
      op.Agrees P others w stamp joint) : op.Agrees P others w stamp joint := by
  rcases joint with _ | ⟨⟨t, r, v⟩, _ | ⟨⟨s, a, u⟩, rest⟩⟩
  · obtain rfl | ⟨index, rfl⟩ := hop <;> exact agrees_of_same .leftOut h rfl rfl
  · obtain rfl | ⟨index, rfl⟩ := hop <;> exact agrees_of_same .leftOut h rfl rfl
  · cases s with
    | array elem =>
        by_cases htype : t = elem
        · subst htype
          exact hfirst rfl
        · refine agrees_of_same .leftOut h ?_ ?_
          · obtain rfl | ⟨index, rfl⟩ := hop
            all_goals
              unfold run
              simp only [Joint.refs_cons, if_neg htype]
              rfl
          · obtain rfl | ⟨index, rfl⟩ := hop
            all_goals unfold eval
            all_goals simp only [Joint.values_cons, if_neg htype]
    | _ => obtain rfl | ⟨index, rfl⟩ := hop <;> exact agrees_of_same .leftOut h rfl rfl

/-- An operation that looks the first handle up in the map behind it is left out unless the handle
has the type of the keys. -/
theorem agrees_beside_map (hop : op = remove ∨ op = find ∨ op = contains)
    (h : Simulation P others w stamps stamp joint)
    (hfirst : ∀ {key value k kv m mv rest},
      joint = (key, k, kv) :: (.map key value, m, mv) :: rest → op.Agrees P others w stamp joint) :
    op.Agrees P others w stamp joint := by
  rcases joint with _ | ⟨⟨t, k, kv⟩, _ | ⟨⟨s, m, mv⟩, rest⟩⟩
  · rcases hop with rfl | rfl | rfl <;> exact agrees_of_same .leftOut h rfl rfl
  · rcases hop with rfl | rfl | rfl <;> exact agrees_of_same .leftOut h rfl rfl
  · cases s with
    | map key value =>
        by_cases htype : t = key
        · subst htype
          exact hfirst rfl
        · refine agrees_of_same .leftOut h ?_ ?_
          · rcases hop with rfl | rfl | rfl
            all_goals
              unfold run
              simp only [Joint.refs_cons, if_neg htype]
              rfl
          · rcases hop with rfl | rfl | rfl
            all_goals unfold eval
            all_goals simp only [Joint.values_cons, if_neg htype]
    | _ => rcases hop with rfl | rfl | rfl <;> exact agrees_of_same .leftOut h rfl rfl

/-! ## New handles -/

theorem agrees_text (h : Simulation P others w stamps stamp joint) (s : String) :
    (text s).Agrees P others w stamp joint := by
  obtain ⟨id, w', hrun, hserves⟩ :=
    Run.completes_create h.serves (by decide : ObjectClass.string ∈ classes) (.text s)
  have hnew : w.Renews P (joint.held ++ others) id .string (.text s) w' :=
    Run.renews_create h.balanced trivial hrun
  exact ⟨.done, (.string, some id, .text stamp s) :: joint, _, w', (run_bind_of_ok hrun).trans rfl,
    rfl, h.renew hnew hserves (fun _ hd => hd) (fun x hx => absurd hx List.not_mem_nil)
      (.new_text hnew stamps stamp) rfl⟩

/-- A box is of the type for its content. -/
theorem typed_box (c : BoxContent) (stamp : Nat) :
    (HandleType.box (.ofContent c)).mismatch? (.box stamp c) = none :=
  HandleType.mismatch?_box_eq_none.mpr (.inr ⟨stamp, c, rfl, rfl⟩)

theorem agrees_box (h : Simulation P others w stamps stamp joint) (c : BoxContent) :
    (box c).Agrees P others w stamp joint := by
  obtain ⟨id, w', hrun, hserves⟩ := Box.completes_make h.serves c
  have hempty : (c.payload : Payload κ).references = [] := c.references_payload
  have hnew : w.Renews P (joint.held ++ others) id c.cls c.payload w' := by
    refine Run.renews_create ?_ (c.suits _) hrun
    rw [hempty]
    exact h.balanced
  refine ⟨.done, (.box (.ofContent c), some id, .box stamp c) :: joint, _, w',
    (run_bind_of_ok hrun).trans rfl, rfl, h.renew hnew hserves (fun _ hd => hd) (fun x hx => ?_)
      (.new_box hnew stamps stamp) (typed_box c stamp)⟩
  rw [hempty] at hx
  cases hx

theorem agrees_null (h : Simulation P others w stamps stamp joint) (t : HandleType) :
    (null t).Agrees P others w stamp joint := by
  refine ⟨.done, (t, none, .null) :: joint, stamps, w, rfl, rfl, ?_⟩
  exact ⟨h.balanced, h.serves, List.forall_mem_cons.mpr ⟨.null, h.shows⟩,
    List.forall_mem_cons.mpr ⟨by cases t <;> rfl, h.typed⟩, h.distinct, h.later.earlier⟩

theorem agrees_array (h : Simulation P others w stamps stamp joint) (elem : HandleType)
    (size : Nat) : (array elem size).Agrees P others w stamp joint := by
  have hrefs := Stack.elements?_image Prod.fst elem size joint
  have hvalues := Stack.elements?_image Prod.snd elem size joint
  cases hfirst : Stack.elements? elem size joint with
  | none =>
      rw [hfirst] at hrefs hvalues
      refine agrees_of_same .leftOut h ?_ ?_
      · unfold run
        simp only [Joint.refs, hrefs]
        rfl
      · unfold eval
        simp only [Joint.values, hvalues]
        rfl
  | some p =>
      obtain ⟨items, rest⟩ := p
      rw [hfirst] at hrefs hvalues
      obtain rfl := Stack.eq_of_elements? hfirst
      have hmem : ∀ p ∈ items, (elem, p) ∈ items.map (fun p => (elem, p)) ++ rest :=
        fun p hp => List.mem_append_left _ (List.mem_map_of_mem hp)
      have hvisible := List.forall₂_map_left_iff.mpr (List.forall₂_map_right_iff.mpr
        (List.forall₂_same.mpr fun p hp => h.visible (hmem p hp)))
      have htyped : ∀ v ∈ items.map Prod.snd, elem.mismatch? v = none := by
        intro v hv
        obtain ⟨p, hp, rfl⟩ := List.mem_map.mp hv
        exact h.typed _ (hmem p hp)
      have hb := h.balanced
      rw [Joint.held_append, Joint.held_map, List.append_assoc] at hb
      obtain ⟨r, w', hrun, hserves⟩ := Arr.completes_ofList h.serves (items.map Prod.fst)
      obtain ⟨id, rfl, hnew⟩ := Arr.renews_ofList hb hrun
      refine ⟨.done, (.array elem, some id, .array stamp (items.map Prod.snd)) :: rest, _, w', ?_,
        ?_, h.renew_array hnew hserves (fun _ => List.mem_append_right _) hvisible htyped⟩
      · unfold run
        simp only [Joint.refs, hrefs]
        exact (run_bind_of_ok hrun).trans rfl
      · unfold eval
        simp only [Joint.values, hvalues]
        rfl

theorem agrees_map (h : Simulation P others w stamps stamp joint) (key value : HandleType)
    (size : Nat) : (map key value size).Agrees P others w stamp joint := by
  have hrefs := Stack.pairs?_image Prod.fst key value size joint
  have hvalues := Stack.pairs?_image Prod.snd key value size joint
  cases hfirst : Stack.pairs? key value size joint with
  | none =>
      rw [hfirst] at hrefs hvalues
      refine agrees_of_same .leftOut h ?_ ?_
      · unfold run
        simp only [Joint.refs, hrefs]
        rfl
      · unfold eval
        simp only [Joint.values, hvalues]
        rfl
  | some p =>
      obtain ⟨pairs, rest⟩ := p
      rw [hfirst] at hrefs hvalues
      obtain rfl := Stack.eq_of_pairs? hfirst
      have hmem : ∀ p ∈ pairs, ∀ d ∈ [(key, p.1), (value, p.2)],
          d ∈ pairs.flatMap (fun p => [(key, p.1), (value, p.2)]) ++ rest :=
        fun p hp d hd => List.mem_append_left _ (List.mem_flatMap.mpr ⟨p, hp, hd⟩)
      have hkeys := fun p hp => hmem p hp (key, p.1) List.mem_cons_self
      have hvals := fun p hp => hmem p hp (value, p.2) (List.mem_cons_of_mem _ List.mem_cons_self)
      have hvisible : Alongside (Joint.Visible w stamps _) (pairs.map (Prod.map Prod.fst Prod.fst))
          (pairs.map (Prod.map Prod.snd Prod.snd)) :=
        List.forall₂_map_left_iff.mpr (List.forall₂_map_right_iff.mpr (List.forall₂_same.mpr
          fun p hp => ⟨h.visible (hkeys p hp), h.visible (hvals p hp)⟩))
      have htyped : ∀ d ∈ pairs.map (Prod.map Prod.snd Prod.snd),
          key.mismatch? d.1 = none ∧ value.mismatch? d.2 = none := by
        intro d hd
        obtain ⟨p, hp, rfl⟩ := List.mem_map.mp hd
        exact ⟨h.typed _ (hkeys p hp), h.typed _ (hvals p hp)⟩
      have hb := h.balanced
      rw [Joint.held_append, Joint.held_pairs, List.append_assoc] at hb
      obtain ⟨r, w', hrun, hserves⟩ :=
        Dict.completes_ofList h.serves (pairs.map (Prod.map Prod.fst Prod.fst))
      obtain ⟨id, rfl, hnew⟩ := Dict.renews_ofList hb hrun
      obtain ⟨hentries, hdistinct⟩ := Alongside.collect h.comparing hvisible .nil .nil
      refine ⟨.done, (.map key value, some id,
          .map stamp (Entries.ofPairs (pairs.map (Prod.map Prod.snd Prod.snd)))) :: rest, _, w', ?_,
        ?_, h.renew_map hnew hserves (fun _ => List.mem_append_right _) hentries hdistinct
          (Entries.forall_ofPairs (key.mismatch? · = none) (value.mismatch? · = none) htyped)⟩
      · unfold run
        simp only [Joint.refs, hrefs]
        exact (run_bind_of_ok hrun).trans rfl
      · unfold eval
        simp only [Joint.values, hvalues]
        rfl

/-! ## Handles that are copied, given up or turned into others -/

theorem agrees_clone (h : Simulation P others w stamps stamp joint) :
    clone.Agrees P others w stamp joint := by
  cases joint with
  | nil => exact agrees_of_same .leftOut h rfl rfl
  | cons d rest =>
      obtain ⟨w', hrun, h'⟩ :=
        h.take (h.visible List.mem_cons_self) (h.typed d List.mem_cons_self)
      exact ⟨.done, d :: d :: rest, stamps, w', (run_bind_of_ok hrun).trans rfl, rfl, h'.later⟩

theorem agrees_drop (h : Simulation P others w stamps stamp joint) :
    drop.Agrees P others w stamp joint := by
  rcases joint with _ | ⟨⟨t, r, v⟩, rest⟩
  · exact agrees_of_same .leftOut h rfl rfl
  · exact ⟨.done, rest, stamps, _, rfl, rfl, h.lose.later⟩

theorem agrees_bring (h : Simulation P others w stamps stamp joint) (position : Nat) :
    (bring position).Agrees P others w stamp joint := by
  have hget : ∀ {σ : Type} (f : Ref × PlainValue → σ),
      (joint.image f)[position]? = (joint[position]?).map fun d => (d.1, f d.2) :=
    fun f => List.getElem?_map
  have herase : ∀ {σ : Type} (f : Ref × PlainValue → σ),
      (joint.image f).eraseIdx position = Stack.image f (joint.eraseIdx position) :=
    fun f => List.eraseIdx_map _ joint position
  cases hd : joint[position]? with
  | none =>
      refine agrees_of_same .leftOut h ?_ ?_
      · unfold run
        simp only [Joint.refs, hget, hd]
        rfl
      · unfold eval
        simp only [Joint.values, hget, hd]
        rfl
  | some d =>
      obtain ⟨hlt, rfl⟩ := List.getElem?_eq_some_iff.mp hd
      have hperm := List.getElem_cons_eraseIdx_perm hlt
      refine ⟨.done, joint[position] :: joint.eraseIdx position, stamps, w, ?_, ?_,
        (h.perm hperm).later⟩
      · unfold run
        simp only [Joint.refs, hget, hd, herase]
        rfl
      · unfold eval
        simp only [Joint.values, hget, hd, herase]
        rfl

theorem agrees_upcast (h : Simulation P others w stamps stamp joint) :
    upcast.Agrees P others w stamp joint := by
  rcases joint with _ | ⟨⟨t, r, v⟩, rest⟩
  · exact agrees_of_same .leftOut h rfl rfl
  · have htyped : HandleType.object.mismatch? v = none := by cases v <;> rfl
    exact ⟨.done, (.object, r, v) :: rest, stamps, w, rfl, rfl, (h.retype htyped).later⟩

theorem agrees_downcast (h : Simulation P others w stamps stamp joint) (t : HandleType) :
    (downcast t).Agrees P others w stamp joint := by
  rcases joint with _ | ⟨⟨u, r, v⟩, rest⟩
  · exact agrees_of_same .leftOut h rfl rfl
  · have hr := h.visible List.mem_cons_self
    cases hmismatch : t.mismatch? v with
    | none =>
        obtain ⟨w', hrun, -, h'⟩ := h.downcast hr hmismatch
        refine ⟨.done, (t, r, v) :: rest, stamps, w', ?_, ?_, (h'.retype hmismatch).later⟩
        · exact (run_bind_of_ok (Run.attempt_of_ok
            (Run.releasingOnFault_eq_ok.mpr hrun))).trans rfl
        · unfold eval
          simp only [Joint.values_cons, hmismatch]
    | some mismatch =>
        obtain ⟨w', hrun, h'⟩ := h.downcast_mismatch hr hmismatch
        refine ⟨.failed (.typeMismatch t.ref.typeName mismatch), rest, stamps, _, ?_, ?_,
          h'.lose.later⟩
        · have hfail : Run.releasingOnFault r.toList (Run.downcast t.ref r) w =
              (.error (.error (.typeMismatch t.ref.typeName mismatch)),
                { w' with heap := r.toList.foldl Heap.release w'.heap }) := by
            simp only [Run.releasingOnFault, Run.onFault, hrun]
          exact (run_bind_of_ok (Run.attempt_of_error hfail)).trans rfl
        · unfold eval
          simp only [Joint.values_cons, hmismatch]

/-! ## Changes -/

/-- The object behind a handle to an array. -/
theorem objectAt_array (h : Simulation P others w stamps stamp joint)
    (hmem : (.array elem, r, v) ∈ joint) :
    ∀ x, r = some x → w.ObjectAt x .array (.array (w.elements r)) := by
  rintro x rfl
  have hshows := h.shows _ hmem
  rcases HandleType.mismatch?_array_eq_none.mp (h.typed _ hmem) with
    hnull | ⟨stamp, elems, harray, -⟩
  · simp only at hnull
    subst hnull
    cases hshows
  · simp only at harray
    subst harray
    cases hshows with
    | array object =>
        rw [Arr.elements_of_payload object.content]
        exact object

theorem push_first (h : Simulation P others w stamps stamp
    ((elem, r, v) :: (.array elem, a, u) :: rest)) :
    push.Agrees P others w stamp ((elem, r, v) :: (.array elem, a, u) :: rest) := by
  have hfirst := h.visible List.mem_cons_self
  have harray : (HandleType.array elem, a, u) ∈ (elem, r, v) :: (.array elem, a, u) :: rest :=
    List.mem_cons_of_mem _ List.mem_cons_self
  have helems := (h.visible harray).elements
  obtain ⟨a', w', hrun, hserves⟩ := Arr.completes_push h.serves a r
  obtain ⟨id, rfl, hnew⟩ := Arr.renews_push h.balanced_swap (objectAt_array h harray) hrun
  refine ⟨.done, (.array elem, some id, .array stamp (u.elements ++ [v])) :: rest, _, w', ?_, ?_,
    h.renew_array hnew hserves (fun d hd => by simp [hd])
      (List.rel_append helems (.cons hfirst .nil)) ?_⟩
  · unfold run
    simp only [Joint.refs_cons, if_true]
    exact (run_bind_of_ok hrun).trans rfl
  · unfold eval
    simp only [Joint.values_cons, if_true]
  · intro x hx
    rcases List.mem_append.mp hx with hx | hx
    · exact HandleType.mismatch?_of_elements (h.typed _ harray) x hx
    · obtain rfl := List.mem_singleton.mp hx
      exact h.typed _ List.mem_cons_self

theorem agrees_push (h : Simulation P others w stamps stamp joint) :
    push.Agrees P others w stamp joint := by
  refine agrees_beside_array (.inl rfl) h fun hjoint => ?_
  subst hjoint
  exact push_first h

theorem set_first (h : Simulation P others w stamps stamp
    ((elem, r, v) :: (.array elem, a, u) :: rest)) (index : Int) :
    (set index).Agrees P others w stamp ((elem, r, v) :: (.array elem, a, u) :: rest) := by
  have hfirst := h.visible List.mem_cons_self
  have harray : (HandleType.array elem, a, u) ∈ (elem, r, v) :: (.array elem, a, u) :: rest :=
    List.mem_cons_of_mem _ List.mem_cons_self
  have helems := (h.visible harray).elements
  have hsize : (w.elements a).length = u.elements.length := helems.length_eq
  cases hat : at? u.elements index with
  | none =>
      have hposition := position_of_not_at? hat
      rw [← hsize] at hposition
      refine ⟨outOfBounds u.elements index, (.array elem, a, u) :: rest, stamps, _, ?_, ?_,
        h.lose.later⟩
      · unfold run
        simp only [Joint.refs_cons, if_true, outOfBounds, ← hsize]
        exact (run_bind_of_ok (Run.attempt_of_error (Arr.set_of_no_position hposition r))).trans rfl
      · unfold eval
        simp only [Joint.values_cons, if_true, hat]
        rfl
  | some old =>
      obtain ⟨hposition, -⟩ := position_of_at? hat
      rw [← hsize] at hposition
      obtain ⟨a', w', hrun, hserves⟩ := Arr.completes_set h.serves hposition r
      obtain ⟨id, i, rfl, hi, hnew⟩ := Arr.renews_set h.balanced_swap (objectAt_array h harray) hrun
      cases hposition.symm.trans hi
      refine ⟨.done, (.array elem, some id, .array stamp (u.elements.set index.toNat v)) :: rest,
        _, w', ?_, ?_, h.renew_array hnew hserves (fun d hd => by simp [hd])
          (forall₂_set helems hfirst _) fun x hx => ?_⟩
      · unfold run
        simp only [Joint.refs_cons, if_true]
        exact (run_bind_of_ok (Run.attempt_of_ok hrun)).trans rfl
      · unfold eval
        simp only [Joint.values_cons, if_true, hat, Option.isSome_some]
      · rcases List.mem_or_eq_of_mem_set hx with hx | rfl
        · exact HandleType.mismatch?_of_elements (h.typed _ harray) x hx
        · exact h.typed _ List.mem_cons_self

theorem agrees_set (h : Simulation P others w stamps stamp joint) (index : Int) :
    (set index).Agrees P others w stamp joint := by
  refine agrees_beside_array (.inr ⟨index, rfl⟩) h fun hjoint => ?_
  subst hjoint
  exact set_first h index

/-- The object behind a handle to a map. -/
theorem objectAt_map (h : Simulation P others w stamps stamp joint)
    (hmem : (.map key value, r, v) ∈ joint) :
    ∀ x, r = some x → w.ObjectAt x .map (.map (w.entries r)) := by
  rintro x rfl
  have hshows := h.shows _ hmem
  rcases HandleType.mismatch?_map_eq_none.mp (h.typed _ hmem) with
    hnull | ⟨stamp, entries, hmap, -⟩
  · simp only at hnull
    subst hnull
    cases hshows
  · simp only at hmap
    subst hmap
    cases hshows with
    | map object =>
        rw [Dict.entries_of_payload object.content]
        exact object

theorem insert_first (h : Simulation P others w stamps stamp
    ((value, r, v) :: (key, k, kv) :: (.map key value, m, mv) :: rest)) :
    insert.Agrees P others w stamp
      ((value, r, v) :: (key, k, kv) :: (.map key value, m, mv) :: rest) := by
  have hvalue := h.visible List.mem_cons_self
  have hkey := h.visible (List.mem_cons_of_mem _ List.mem_cons_self)
  have hmap : (HandleType.map key value, m, mv) ∈
      (value, r, v) :: (key, k, kv) :: (.map key value, m, mv) :: rest := by simp
  have hb : w.Balanced P (m.toList ++ ((k.toList ++ r.toList) ++ (rest.held ++ others))) := by
    refine h.balanced.perm (List.perm_iff_count.mpr fun x => ?_)
    simp only [Joint.held_cons, List.count_append]
    omega
  obtain ⟨m', w', hrun, hserves⟩ := Dict.completes_insert h.serves m k r
  obtain ⟨id, rfl, hnew⟩ := Dict.renews_insert hb (objectAt_map h hmap) hrun
  have hdistinct := (h.shows _ hmap).distinct
  refine ⟨.done, (.map key value, some id, .map stamp (Entries.put mv.entries kv v)) :: rest, _,
    w', ?_, ?_, h.renew_map hnew hserves (fun d hd => by simp [hd])
      (.insertEntry h.comparing (h.visible hmap).entries hdistinct hkey hvalue)
      (hdistinct.put kv v) (Entries.forall_put (key.mismatch? · = none) (value.mismatch? · = none)
        (HandleType.mismatch?_of_entries (h.typed _ hmap))
        (h.typed _ (List.mem_cons_of_mem _ List.mem_cons_self)) (h.typed _ List.mem_cons_self))⟩
  · unfold run
    simp only [Joint.refs_cons, and_self, if_true]
    exact (run_bind_of_ok hrun).trans rfl
  · unfold eval
    simp only [Joint.values_cons, and_self, if_true]

theorem agrees_insert (h : Simulation P others w stamps stamp joint) :
    insert.Agrees P others w stamp joint := by
  rcases joint with _ | ⟨⟨u, r, v⟩, _ | ⟨⟨t, k, kv⟩, _ | ⟨⟨s, m, mv⟩, rest⟩⟩⟩
  · exact agrees_of_same .leftOut h rfl rfl
  · exact agrees_of_same .leftOut h rfl rfl
  · exact agrees_of_same .leftOut h rfl rfl
  · cases s with
    | map key value =>
        by_cases htypes : t = key ∧ u = value
        · obtain ⟨rfl, rfl⟩ := htypes
          exact insert_first h
        · refine agrees_of_same .leftOut h ?_ ?_
          · unfold run
            simp only [Joint.refs_cons, if_neg htypes]
            rfl
          · unfold eval
            simp only [Joint.values_cons, if_neg htypes]
    | _ => exact agrees_of_same .leftOut h rfl rfl

theorem remove_first (h : Simulation P others w stamps stamp
    ((key, k, kv) :: (.map key value, m, mv) :: rest)) :
    remove.Agrees P others w stamp ((key, k, kv) :: (.map key value, m, mv) :: rest) := by
  have hkey := h.visible List.mem_cons_self
  have hmap : (HandleType.map key value, m, mv) ∈
      (key, k, kv) :: (.map key value, m, mv) :: rest := by simp
  have hperm : List.Perm (m.toList ++ (Joint.held ((key, k, kv) :: rest) ++ others))
      (Joint.held ((key, k, kv) :: (.map key value, m, mv) :: rest) ++ others) := by
    refine List.perm_iff_count.mpr fun x => ?_
    simp only [Joint.held_cons, List.count_append]
    omega
  have hb := h.balanced.perm hperm
  have hheld : ∀ x, k = some x →
      w.heap.Reachable (Joint.held ((key, k, kv) :: rest) ++ others) x := by
    rintro x rfl
    exact .of_mem List.mem_cons_self
  have hentries := (h.visible hmap).entries
  have hdistinct := (h.shows _ hmap).distinct
  have hany := Alongside.any_eq_has h.comparing hentries hkey
  obtain ⟨⟨m', found⟩, w', hrun, hserves⟩ := Dict.completes_remove h.serves m k
  rcases Dict.renews_remove hb (objectAt_map h hmap) hheld hrun with
    ⟨rfl, hfound, id, rfl, hnew⟩ | ⟨rfl, hfound, rfl, hb', hsince⟩
  · rw [hany] at hfound
    have hrenewed := h.renew_map hnew hserves (fun d hd => by
        rcases List.mem_cons.mp hd with rfl | hd <;> simp [*])
      (.eraseP h.comparing hentries hdistinct hkey) (hdistinct.erase kv) fun d hd =>
        HandleType.mismatch?_of_entries (h.typed _ hmap) d (List.mem_filter.mp hd).1
    refine ⟨.flag true, (key, k, kv) ::
        (.map key value, some id, .map stamp (Entries.erase mv.entries kv)) :: rest, _, w', ?_, ?_,
      hrenewed.perm (.swap _ _ _)⟩
    · unfold run
      simp only [Joint.refs_cons, if_true]
      exact (run_bind_of_ok hrun).trans rfl
    · unfold eval
      simp only [Joint.values_cons, if_true, hfound]
  · rw [hany] at hfound
    have hkept := h.keep _ (fun _ hx => hx) (hsince _) (hb'.perm hperm.symm) hserves h.shows h.typed
      fun d hd => (h.visible hd).reached
    refine agrees_of_same (.flag false) hkept ?_ ?_
    · unfold run
      simp only [Joint.refs_cons, if_true]
      exact (run_bind_of_ok hrun).trans rfl
    · unfold eval
      simp only [Joint.values_cons, if_true, hfound, Bool.false_eq_true, if_false]

theorem agrees_remove (h : Simulation P others w stamps stamp joint) :
    remove.Agrees P others w stamp joint := by
  refine agrees_beside_map (.inl rfl) h fun hjoint => ?_
  subst hjoint
  exact remove_first h

/-- Contents of one kind are in boxes of one class. -/
theorem cls_eq_of_kind {c c' : BoxContent} (hkind : BoxKind.ofContent c = .ofContent c') :
    c'.cls = c.cls := by
  cases c <;> cases c' <;> first | rfl | cases hkind

theorem agrees_setValue (h : Simulation P others w stamps stamp joint) (c : BoxContent) :
    (setValue c).Agrees P others w stamp joint := by
  rcases joint with _ | ⟨⟨t, r, v⟩, rest⟩
  · exact agrees_of_same .leftOut h rfl rfl
  · cases t with
    | box kind =>
        by_cases hkind : kind = .ofContent c
        · subst hkind
          have hbox : ∀ x, r = some x →
              ∃ old : BoxContent, w.ObjectAt x c.cls old.payload := by
            rintro x rfl
            have hshows := h.shows _ List.mem_cons_self
            rcases HandleType.mismatch?_box_eq_none.mp (h.typed _ List.mem_cons_self) with
              hnull | ⟨_, old, hold, hkind⟩
            · simp only at hnull
              subst hnull
              cases hshows
            · simp only at hold
              subst hold
              cases hshows with
              | box object => exact ⟨old, cls_eq_of_kind hkind ▸ object⟩
          have hb := h.balanced
          rw [Joint.held_cons, List.append_assoc] at hb
          obtain ⟨r', w', hrun, hserves⟩ := Box.completes_setValue h.serves r c
          obtain ⟨id, rfl, hnew⟩ := Box.renews_setValue hb hbox hrun
          refine ⟨.done, (.box (.ofContent c), some id, .box stamp c) :: rest, _, w', ?_, ?_,
            h.renew hnew hserves (fun _ => List.mem_cons_of_mem _) (fun x hx => ?_)
              (.new_box hnew stamps stamp) (typed_box c stamp)⟩
          · unfold run
            simp only [Joint.refs_cons, if_true]
            exact (run_bind_of_ok hrun).trans rfl
          · unfold eval
            simp only [Joint.values_cons, if_true]
          · rw [BoxContent.references_payload] at hx
            cases hx
        · refine agrees_of_same .leftOut h ?_ ?_
          · unfold run
            simp only [Joint.refs_cons, if_neg hkind]
            rfl
          · unfold eval
            simp only [Joint.values_cons, if_neg hkind]
    | _ => exact agrees_of_same .leftOut h rfl rfl

/-! ## Reading -/

theorem agrees_get (h : Simulation P others w stamps stamp joint) (index : Int) :
    (get index).Agrees P others w stamp joint := by
  rcases joint with _ | ⟨⟨t, a, u⟩, rest⟩
  · exact agrees_of_same .leftOut h rfl rfl
  · cases t with
    | array elem =>
        have helems := (h.visible List.mem_cons_self).elements
        have hsize : (w.elements a).length = u.elements.length := helems.length_eq
        cases hat : at? u.elements index with
        | none =>
            have hposition := position_of_not_at? hat
            rw [← hsize] at hposition
            have hget : Arr.get elem.ref a index w =
                (.error (.error (.indexOutOfBounds "Array" index (w.elements a).length)), w) := by
              rw [Arr.get, run_get_bind, hposition]
              rfl
            refine agrees_of_same (outOfBounds u.elements index) h ?_ ?_
            · unfold run
              simp only [Joint.refs_cons, outOfBounds, ← hsize]
              exact (run_bind_of_ok (Run.attempt_of_error hget)).trans rfl
            · unfold eval
              simp only [Joint.values_cons, hat]
        | some v =>
            obtain ⟨hposition, hv⟩ := position_of_at? hat
            rw [← hsize] at hposition
            obtain ⟨r, hr, hvisible⟩ := exists_getElem?_of_forall₂ helems hv
            have htyped : elem.mismatch? v = none := HandleType.mismatch?_of_elements
              (h.typed _ List.mem_cons_self) v (List.mem_of_getElem? hv)
            obtain ⟨w₁, hdowncast, hvisible₁, h₁⟩ := h.downcast hvisible htyped
            obtain ⟨w', htake, h'⟩ := h₁.take hvisible₁ htyped
            have hget : Arr.get elem.ref a index w = (.ok r, w') := by
              rw [Arr.get, run_get_bind, run_bind_of_ok (Run.ofExcept_eq_ok.mpr ⟨hposition, rfl⟩),
                hr, Option.join_some, run_bind_of_ok hdowncast, run_bind_of_ok htake]
              rfl
            refine ⟨.done, (elem, r, v) :: (.array elem, a, u) :: rest, stamps, w', ?_, ?_, h'.later⟩
            · unfold run
              simp only [Joint.refs_cons]
              exact (run_bind_of_ok (Run.attempt_of_ok hget)).trans rfl
            · unfold eval
              simp only [Joint.values_cons, hat]
    | _ => exact agrees_of_same .leftOut h rfl rfl

theorem find_first (h : Simulation P others w stamps stamp
    ((key, k, kv) :: (.map key value, m, mv) :: rest)) :
    find.Agrees P others w stamp ((key, k, kv) :: (.map key value, m, mv) :: rest) := by
  have hmap : (HandleType.map key value, m, mv) ∈
      (key, k, kv) :: (.map key value, m, mv) :: rest := by simp
  obtain ⟨_, w₁, hask, hserves⟩ := Run.completes_askKey h.serves k
  have h₁ := h.quiet (Run.quiet_askKey k) hask hserves
  have hkey := h₁.visible List.mem_cons_self
  have hentries := (h₁.visible hmap).entries
  cases hvalue : Entries.valueAt? mv.entries kv with
  | none =>
      have hnone : Dict.find? w₁ m k = none :=
        Alongside.find?_of_none h₁.comparing hentries hkey hvalue
      have hget : Dict.get value.ref m k w = (.error (.error (.keyMissing kv.keyText)), w₁) := by
        rw [Dict.get, run_bind_of_ok hask, run_get_bind, hnone, ← hkey.shows.showKey hserves.regular]
        rfl
      refine agrees_of_same (.failed (.keyMissing kv.keyText)) h₁ ?_ ?_
      · unfold run
        simp only [Joint.refs_cons, if_true]
        exact (run_bind_of_ok (Run.attempt_of_error hget)).trans rfl
      · unfold eval
        simp only [Joint.values_cons, if_true, hvalue]
  | some v =>
      obtain ⟨r, hfound, hvisible⟩ := Alongside.find?_of_some h₁.comparing hentries hkey hvalue
      have hsome : Dict.find? w₁ m k = some r := hfound
      obtain ⟨d, hd, rfl⟩ := Entries.mem_of_valueAt? hvalue
      have htyped := (HandleType.mismatch?_of_entries (h₁.typed _ hmap) d hd).2
      obtain ⟨w₂, hdowncast, hvisible₂, h₂⟩ := h₁.downcast hvisible htyped
      obtain ⟨w', htake, h'⟩ := h₂.take hvisible₂ htyped
      have hget : Dict.get value.ref m k w = (.ok r, w') := by
        rw [Dict.get, run_bind_of_ok hask, run_get_bind, hsome]
        exact (run_bind_of_ok hdowncast).trans ((run_bind_of_ok htake).trans rfl)
      refine ⟨.done, (value, r, d.2) :: (key, k, kv) :: (.map key value, m, mv) :: rest, stamps, w',
        ?_, ?_, h'.later⟩
      · unfold run
        simp only [Joint.refs_cons, if_true]
        exact (run_bind_of_ok (Run.attempt_of_ok hget)).trans rfl
      · unfold eval
        simp only [Joint.values_cons, if_true, hvalue]

theorem agrees_find (h : Simulation P others w stamps stamp joint) :
    find.Agrees P others w stamp joint := by
  refine agrees_beside_map (.inr (.inl rfl)) h fun hjoint => ?_
  subst hjoint
  exact find_first h

theorem iterate_array (h : Simulation P others w stamps stamp ((.array elem, a, u) :: rest)) :
    iterate.Agrees P others w stamp ((.array elem, a, u) :: rest) := by
  obtain ⟨w₁, hask, -, hvisible, h₁⟩ := h.asked (h.visible List.mem_cons_self) (.array elem)
  have helems := hvisible.elements
  have htyped := HandleType.mismatch?_of_elements (h₁.typed _ List.mem_cons_self)
  have hchecked : ∀ r ∈ w₁.elements a, w₁.mismatch? elem.ref r = none := by
    intro r hr
    obtain ⟨v, hv, hrv⟩ := exists_mem_of_forall₂ helems.flip hr
    rw [hrv.shows.mismatch? h₁.serves.regular, htyped v hv]
  have hitems : Arr.items elem.ref a w = (.ok (w₁.elements a), w₁) := by
    refine (run_bind_of_ok hask).trans ?_
    rw [run_get_bind, Arr.iterate_of_checked hchecked]
    rfl
  obtain ⟨new, hrefs, hvalues, hheld, hnew⟩ := Joint.exists_of_elements elem helems htyped
  obtain ⟨w', htake, h'⟩ := h₁.takeAll hnew
  rw [hheld] at htake
  refine ⟨.done, new ++ (.array elem, a, u) :: rest, stamps, w', ?_, ?_, h'.later⟩
  · unfold run
    simp only [Joint.refs_cons, Joint.refs_append, hrefs]
    exact (run_bind_of_ok hitems).trans ((run_bind_of_ok htake).trans rfl)
  · unfold eval
    simp only [Joint.values_cons, Joint.values_append, hvalues]

theorem iterate_map (h : Simulation P others w stamps stamp ((.map key value, m, mv) :: rest)) :
    iterate.Agrees P others w stamp ((.map key value, m, mv) :: rest) := by
  obtain ⟨_, w₁, hask, hserves⟩ := Dict.completes_askItems h.serves key value m
  have h₁ := h.quiet (Dict.quiet_askItems key.ref value.ref m) hask hserves
  have hentries := (h₁.visible List.mem_cons_self).entries
  have htyped := HandleType.mismatch?_of_entries (h₁.typed _ List.mem_cons_self)
  have hchecked : ∀ e ∈ w₁.entries m,
      w₁.mismatch? key.ref e.1 = none ∧ w₁.mismatch? value.ref e.2 = none := by
    intro e he
    obtain ⟨d, hd, hkey, hvalue⟩ := exists_mem_of_forall₂ hentries.flip he
    rw [hkey.shows.mismatch? hserves.regular, hvalue.shows.mismatch? hserves.regular]
    exact htyped d hd
  have hitems : Dict.items key.ref value.ref m w = (.ok (w₁.entries m), w₁) := by
    rw [Dict.items_eq, run_bind_of_ok hask, run_get_bind, Dict.iterate_of_checked hchecked]
    rfl
  obtain ⟨new, hrefs, hvalues, hheld, hnew⟩ := Joint.exists_of_entries key value hentries htyped
  obtain ⟨w', htake, h'⟩ := h₁.takeAll hnew
  rw [hheld] at htake
  refine ⟨.done, new ++ (.map key value, m, mv) :: rest, stamps, w', ?_, ?_, h'.later⟩
  · unfold run
    simp only [Joint.refs_cons, Joint.refs_append, hrefs]
    exact (run_bind_of_ok hitems).trans ((run_bind_of_ok htake).trans rfl)
  · unfold eval
    simp only [Joint.values_cons, Joint.values_append, hvalues]

theorem agrees_iterate (h : Simulation P others w stamps stamp joint) :
    iterate.Agrees P others w stamp joint := by
  rcases joint with _ | ⟨⟨t, r, v⟩, rest⟩
  · exact agrees_of_same .leftOut h rfl rfl
  · cases t with
    | array elem => exact iterate_array h
    | map key value => exact iterate_map h
    | _ => exact agrees_of_same .leftOut h rfl rfl

theorem contains_first (h : Simulation P others w stamps stamp
    ((key, k, kv) :: (.map key value, m, mv) :: rest)) :
    contains.Agrees P others w stamp ((key, k, kv) :: (.map key value, m, mv) :: rest) := by
  have hmap : (HandleType.map key value, m, mv) ∈
      (key, k, kv) :: (.map key value, m, mv) :: rest := by simp
  obtain ⟨_, w₁, hask, hserves⟩ := Dict.completes_askLookup h.serves m k
  have h₁ := h.quiet (Dict.quiet_askLookup m k) hask hserves
  have hany := Alongside.any_eq_has h₁.comparing (h₁.visible hmap).entries
    (h₁.visible List.mem_cons_self)
  have hcontains : Dict.contains w₁ m k = Entries.has mv.entries kv := by
    rw [Dict.contains, Dict.find?, Option.isSome_map, List.isSome_find?]
    exact hany
  have hhas : Dict.has m k w = (.ok (Entries.has mv.entries kv), w₁) := by
    rw [Dict.has, run_bind_of_ok hask, run_get_bind, hcontains]
    rfl
  refine agrees_of_same (.flag (Entries.has mv.entries kv)) h₁ ?_ ?_
  · unfold run
    simp only [Joint.refs_cons, if_true]
    exact (run_bind_of_ok hhas).trans rfl
  · unfold eval
    simp only [Joint.values_cons, if_true]

theorem agrees_contains (h : Simulation P others w stamps stamp joint) :
    contains.Agrees P others w stamp joint := by
  refine agrees_beside_map (.inr (.inr rfl)) h fun hjoint => ?_
  subst hjoint
  exact contains_first h

theorem agrees_len (h : Simulation P others w stamps stamp joint) :
    len.Agrees P others w stamp joint := by
  rcases joint with _ | ⟨⟨t, r, v⟩, rest⟩
  · exact agrees_of_same .leftOut h rfl rfl
  · have hr := h.visible List.mem_cons_self
    cases t with
    | array elem =>
        refine agrees_of_same (.count v.elements.length) h ?_ rfl
        rw [← hr.elements.length_eq]
        rfl
    | map key value =>
        refine agrees_of_same (.count v.entries.length) h ?_ rfl
        rw [← hr.entries.length_eq]
        rfl
    | _ => exact agrees_of_same .leftOut h rfl rfl

theorem agrees_unbox (h : Simulation P others w stamps stamp joint) :
    unbox.Agrees P others w stamp joint := by
  rcases joint with _ | ⟨⟨t, r, v⟩, rest⟩
  · exact agrees_of_same .leftOut h rfl rfl
  · cases t with
    | box kind =>
        have hcontent := (h.shows _ List.mem_cons_self).content? (h.typed _ List.mem_cons_self)
        refine agrees_of_same (.content v.content?) h ?_ rfl
        rw [← hcontent]
        rfl
    | _ => exact agrees_of_same .leftOut h rfl rfl

theorem agrees_read (h : Simulation P others w stamps stamp joint) :
    read.Agrees P others w stamp joint := by
  rcases joint with _ | ⟨⟨t, r, v⟩, rest⟩
  · exact agrees_of_same .leftOut h rfl rfl
  · cases t with
    | string =>
        have htext := (h.shows _ List.mem_cons_self).text?
        refine agrees_of_same (.text v.text?) h ?_ rfl
        rw [← htext]
        rfl
    | _ => exact agrees_of_same .leftOut h rfl rfl

/-- Whatever the operation, it does with objects what it does with values. -/
theorem agrees (h : Simulation P others w stamps stamp joint) (op : Operation) :
    op.Agrees P others w stamp joint := by
  cases op with
  | text s => exact agrees_text h s
  | box c => exact agrees_box h c
  | null t => exact agrees_null h t
  | array elem size => exact agrees_array h elem size
  | map key value size => exact agrees_map h key value size
  | clone => exact agrees_clone h
  | drop => exact agrees_drop h
  | bring position => exact agrees_bring h position
  | upcast => exact agrees_upcast h
  | downcast t => exact agrees_downcast h t
  | push => exact agrees_push h
  | set index => exact agrees_set h index
  | insert => exact agrees_insert h
  | remove => exact agrees_remove h
  | setValue c => exact agrees_setValue h c
  | get index => exact agrees_get h index
  | find => exact agrees_find h
  | iterate => exact agrees_iterate h
  | len => exact agrees_len h
  | contains => exact agrees_contains h
  | unbox => exact agrees_unbox h
  | read => exact agrees_read h

end Operation

/-! ## Programs -/

/-- A program that goes on from handles that show values tells what one that goes on from these
values tells. -/
theorem Simulation.runAll (h : Simulation P others w stamps stamp joint) (ops : List Operation) :
    ∃ w', Handles.runAll ops joint.refs w = (.ok (evalAll stamp ops joint.values), w') := by
  induction ops generalizing w stamps stamp joint with
  | nil => exact ⟨w, rfl⟩
  | cons op ops ih =>
      obtain ⟨answer, joint', stamps', w₁, hrun, heval, h'⟩ := op.agrees h
      obtain ⟨w', hrest⟩ := ih h'
      refine ⟨w', ?_⟩
      rw [Handles.runAll, run_bind_of_ok hrun, run_bind_of_ok hrest, evalAll, heval]
      rfl

/-- A program does the same with objects and with values. -/
theorem runAll_eq_evalAll (hb : w.Balanced P others) (hserves : w.ServesHandles)
    (ops : List Operation) : ∃ w', runAll ops [] w = (.ok (evalAll 0 ops []), w') := by
  have hbegin : Simulation P others w (fun _ => 0) 0 [] := .begin hb hserves
  exact hbegin.runAll ops

/-- An array that is also in a map grows, and the map shows the old one.  An element that is not
there cannot be replaced. -/
theorem runAll_shared : (World.initial : World Unit).Balanced (fun _ => True) [] ∧
    (World.initial : World Unit).ServesHandles ∧
    ∃ w', runAll [.text "x", .array .string 1, .clone, .text "k", .map .string (.array .string) 1,
        .bring 1, .text "y", .push, .len, .bring 1, .text "k", .find, .len, .text "z", .set 5,
        .len] [] (World.initial : World Unit) =
      (.ok [.done, .done, .done, .done, .done, .done, .done, .done, .count 2, .done, .done, .done,
        .count 1, .done, .failed (.indexOutOfBounds "Array" 5 1), .count 1], w') := by
  have hb : (World.initial : World Unit).Balanced (fun _ => True) [] := .of_empty rfl
  exact ⟨hb, World.servesHandles_initial, runAll_eq_evalAll hb World.servesHandles_initial _⟩

end ObjectRuntime.Handles
