import ObjectRuntime.Proofs.Container.Views
set_option autoImplicit false

/-!
# References that pass at every step

Each operation of a program with references leaves every reference such that it passes the check
against its own type: what it makes has been made of parts that pass, and what it changes nobody else
refers to.  So it is after any number of operations.
-/

namespace ObjectRuntime.Views

open Relation (ReflTransGen)
open Run (Conserves Advances Suits Borrowed)

variable {κ : Type} {w w' : World κ} {others : List ObjId} {needs stack kept : Stack}
  {t u : RefType} {r : Ref}

namespace Operation

open Run (covers_rightful)

theorem keeps_null (h : Sound w [] others) (ht : t.Within ObjectClass.Rightful) :
    Keeps w others (pure [(t, none)]) none where
  done hrun := by
    cases hrun
    refine ⟨.refl h.regular others, h.balanced, h.regular, ?_, ?_⟩
    · exact List.forall_mem_singleton.mpr (World.mismatch?_none w t)
    · exact List.forall_mem_singleton.mpr ht
  failed hleft := nomatch hleft

theorem keeps_object {name : String} {c : ObjectClass} {payload : Payload κ}
    (h : Sound w needs others) (hc : c.Rightful) (hsuits : Suits (fun _ => True) c payload)
    (htaken : List.Perm payload.references (held needs)) :
    Keeps w others (do return [(.named name c, some (← Run.create c payload))]) none := by
  have hx : Conserves (fun _ => True) w (held [] ++ others) Option.toList []
      (some <$> Run.create c payload) :=
    (Run.conserves_create [] (h.balanced.perm (htaken.append_right others)) hsuits).map fun _ => rfl
  have hkeeps := h.makes (t := .named name c) (List.forall_mem_nil _) hx
    ((Run.advances_create hc payload).map some) hc fun hrun => by
      obtain ⟨id, hcreate, rfl⟩ := run_map_eq_ok.mp hrun
      exact Run.checked_create name hcreate
  simpa only [map_eq_pure_bind, bind_assoc, pure_bind] using hkeeps

theorem held_elements (elem : RefType) (elems : List Ref) :
    held (elems.map fun r => (elem, r)) = elems.flatMap Option.toList := by
  rw [held, List.flatMap_map]

theorem held_entries (key value : RefType) (pairs : List (Ref × Ref)) :
    held (pairs.flatMap fun e => [(key, e.1), (value, e.2)]) =
      pairs.flatMap Run.entryReferences := by
  simp only [held, List.flatMap_assoc, List.flatMap_cons, List.flatMap_nil, List.append_nil]

theorem keeps_array {elem : RefType} {elems : List Ref}
    (h : Sound w (elems.map fun r => (elem, r)) others)
    (helem : elem.Within ObjectClass.Rightful) :
    Keeps w others (do return [(.array elem, ← Arr.ofList elems)]) none := by
  have hb := h.balanced
  rw [held_elements] at hb
  refine h.makes (List.forall_mem_nil _) (Arr.conserves_ofList hb)
    (Arr.advances_ofList covers_rightful elems) helem fun hrun =>
      Arr.checked_ofList h.regular hb (fun e he => ?_) hrun
  exact h.checked (elem, e) (List.mem_map_of_mem he)

theorem keeps_map {key value : RefType} {pairs : List (Ref × Ref)}
    (h : Sound w (pairs.flatMap fun e => [(key, e.1), (value, e.2)]) others)
    (hkey : key.Within ObjectClass.Rightful) (hvalue : value.Within ObjectClass.Rightful) :
    Keeps w others (do return [(.map key value, ← Dict.ofList pairs)]) none := by
  have hb := h.balanced
  rw [held_entries] at hb
  refine h.makes (List.forall_mem_nil _) (Dict.conserves_ofList hb)
    (Dict.advances_ofList covers_rightful pairs) ⟨hkey, hvalue⟩ fun hrun =>
      Dict.checked_ofList h.regular hb (fun e he => ⟨?_, ?_⟩) hrun
  · exact h.checked (key, e.1) (List.mem_flatMap.mpr ⟨e, he, by simp⟩)
  · exact h.checked (value, e.2) (List.mem_flatMap.mpr ⟨e, he, by simp⟩)

/-! ### References as they are -/

theorem keeps_clone (h : Sound w [(t, r)] others) :
    Keeps w others (do Run.retainRef r; return [(t, r), (t, r)]) none := by
  have hx : Conserves (fun _ => True) w (held [(t, r)] ++ others) Option.toList []
      (do Run.retainRef r; return r) := by
    refine (Run.conserves_retainRef [] [] h.balanced fun a ha => ?_).bind fun _ w₁ _ _ hb₁ =>
      Run.conserves_pure ?_
    · subst ha
      exact .of_mem List.mem_cons_self
    · rwa [List.append_nil] at hb₁
  have hadvances : Advances ObjectClass.Rightful (do Run.retainRef (κ := κ) r; return r) :=
    (Run.advances_retainRef r).bind fun _ => Run.advances_pure r
  have hkeeps := h.makes (t := t) (fun d hd => hd) hx hadvances (h.within _ List.mem_cons_self)
    fun {r' w'} hrun => by
      obtain ⟨hproceeds, -⟩ := hx.proceeds hadvances h.regular hrun
      obtain ⟨_, w₁, -, hdone⟩ := run_bind_eq_ok.mp hrun
      cases hdone
      exact hproceeds.checked_of_mem h.balanced (fun _ hy => hy) (fun a ha => by simp [ha])
        (h.checked _ List.mem_cons_self)
  simpa only [bind_assoc, pure_bind] using hkeeps

theorem keeps_drop (h : Sound w [(t, r)] others) :
    Keeps w others (do Run.releaseAll r.toList; return []) none where
  done hrun := by
    cases hrun
    have hb := h.balanced
    simp only [held_cons, held_nil, List.append_nil] at hb
    obtain ⟨hproceeds, hdone⟩ := Run.proceeds_releases h.regular hb
    exact ⟨hproceeds, hdone, h.regular, List.forall_mem_nil _, List.forall_mem_nil _⟩
  failed hleft := nomatch hleft

theorem keeps_upcast (h : Sound w [(t, r)] others) :
    Keeps w others (pure [(.object, r)]) none where
  done hrun := by
    cases hrun
    refine ⟨.refl h.regular others, h.balanced, h.regular, List.forall_mem_singleton.mpr ?_,
      List.forall_mem_singleton.mpr trivial⟩
    cases r with
    | none => rfl
    | some a => rfl
  failed hleft := nomatch hleft

/-- What has been checked passes. -/
theorem checked_of_downcast {r' : Ref} (hrun : Run.downcast t r w = (.ok r', w')) :
    w'.mismatch? t r' = none := by
  obtain ⟨_, w₁, -, hquery⟩ := run_bind_eq_ok.mp hrun
  rw [Run.query, run_get_bind, World.downcast] at hquery
  cases hcheck : w₁.mismatch? t r with
  | none =>
      rw [hcheck] at hquery
      cases hquery
      exact hcheck
  | some m =>
      rw [hcheck] at hquery
      cases hquery

theorem keeps_downcast (h : Sound w [(t, r)] others) (hu : u.Within ObjectClass.Rightful) :
    Keeps w others (do return [(u, ← Run.releasingOnFault r.toList (Run.downcast u r))])
      (some []) := by
  have hb := h.balanced
  simp only [held_cons, held_nil, List.append_nil] at hb
  have hx : Conserves (fun _ => True) w (held [] ++ others) Option.toList []
      (Run.releasingOnFault r.toList (Run.downcast u r)) := by
    refine ((Run.quiet_downcast u r).holding r.toList hb).perm (fun r' w' hrun => ?_) .rfl
    rw [Run.eq_of_downcast (Run.releasingOnFault_eq_ok.mp hrun)]
  refine h.keeps (List.forall_mem_nil _) hx
    ((Run.advances_downcast covers_rightful hu r).releasingOnFault _) hu fun hrun => ?_
  exact checked_of_downcast (Run.releasingOnFault_eq_ok.mp hrun)

/-- A reference that is taken a further time goes on passing. -/
theorem checked_retainRef (hregular : w.types.Regular)
    (hb : w.Balanced (fun _ => True) others) (hr : ∀ a, r = some a → w.heap.Reachable others a)
    (hcheck : w.mismatch? t r = none) (hrun : Run.retainRef r w = (.ok (), w')) :
    w'.mismatch? t r = none := by
  have hx : Conserves (fun _ => True) w others (fun _ => r.toList ++ []) [] (Run.retainRef r) :=
    Run.conserves_retainRef [] [] hb hr
  obtain ⟨hproceeds, -⟩ := hx.proceeds (Run.advances_retainRef r) hregular hrun
  exact hproceeds.checked hb (fun _ hy => hy) hr hcheck

theorem keeps_view {id : ObjId} (h : Sound w [(t, some id)] others)
    (hu : u.Within ObjectClass.Rightful) :
    Keeps w others (do return [(u, ← viewAs u (some id)), (t, some id)]) (some [(t, some id)]) := by
  have hmem : id ∈ held [(t, some id)] ++ others := by simp
  have hx : Conserves (fun _ => True) w (held [(t, some id)] ++ others) Option.toList []
      (viewAs u (some id)) := by
    refine (Run.quiet_downcast u (some id)).then_conserves [] h.balanced
      fun r' w₁ hrun _ hsince hb₁ => ?_
    rw [Run.eq_of_downcast hrun]
    refine (Run.conserves_retainRef [] [] hb₁ fun a ha => ?_).bind fun _ w₂ _ _ hb₂ =>
      Run.conserves_pure ?_
    · cases ha
      exact .of_mem hmem
    · rwa [List.append_nil] at hb₂
  have hadvances : Advances ObjectClass.Rightful (viewAs (κ := κ) u (some id)) :=
    (Run.advances_downcast covers_rightful hu _).bind fun r =>
      (Run.advances_retainRef r).bind fun _ => Run.advances_pure r
  refine h.keeps (fun d hd => hd) hx hadvances hu fun {r' w'} hrun => ?_
  obtain ⟨r₁, w₁, hdowncast, hrest⟩ := run_bind_eq_ok.mp hrun
  obtain ⟨_, w₂, hretain, hdone⟩ := run_bind_eq_ok.mp hrest
  cases hdone
  have hquiet : Conserves (fun _ => True) w (held [(t, some id)] ++ others) (fun _ => []) []
      (Run.downcast u (some id)) := (Run.quiet_downcast u (some id)).conserves [] h.balanced
  obtain ⟨hproceeds, hb₁⟩ :=
    hquiet.proceeds (Run.advances_downcast covers_rightful hu _) h.regular hdowncast
  have hcheck := checked_of_downcast hdowncast
  rw [Run.eq_of_downcast hdowncast] at hcheck hretain ⊢
  refine checked_retainRef hproceeds.later.regular hb₁ (fun a ha => ?_) hcheck hretain
  cases ha
  exact .of_mem hmem

/-! ### Conversions -/

theorem keeps_pass (h : Sound w [(t, r)] others) (hu : u.Within ObjectClass.Rightful) :
    Keeps w others (do return [(u, ← passAs u r), (t, r)]) (some [(t, r)]) := by
  have hreach : ∀ a, r = some a → w.heap.Reachable (held [(t, r)] ++ others) a := by
    rintro a rfl
    exact .of_mem List.mem_cons_self
  have hconverts : Run.Converts (fun _ => True) (Run.decodeRef (κ := κ) u) :=
    Run.converts_decodeRef u
  have hproduces : Run.Produces (fun _ => True) u (Run.decodeRef (κ := κ) u) :=
    Run.produces_decodeRef hu
  exact h.keeps (fun d hd => hd) (hconverts.travelling h.balanced hreach)
    ((Run.advances_travel covers_rightful r false).bind
      (Run.advances_decodeRef covers_rightful hu)) hu
    (hproduces.travelling h.regular h.balanced hreach)

theorem keeps_convert (h : Sound w [(t, r)] others) (hu : u.Within ObjectClass.Rightful)
    (moved : Bool) : Keeps w others (do return [(u, ← convertAs u r moved)]) (some []) := by
  have hb := h.balanced
  simp only [held_cons, held_nil, List.append_nil] at hb
  have hencode : Conserves (fun _ => True) w others (·.object?.toList) []
      (Run.encodeRef r moved) := Run.conserves_encodeRef hb
  have hborrowed : ∀ {v : Value} {w₁ : World κ}, Borrowed w₁ (v.object?.toList ++ others) v := by
    intro v w₁ a ha
    exact .of_mem (by simp [ha])
  have hx : Conserves (fun _ => True) w (held [] ++ others) Option.toList [] (convertAs u r moved) :=
    hencode.bind fun v w₁ _ _ hb₁ => (Run.converts_decodeRef u hb₁ hborrowed).releasing
  have hadvances : Advances ObjectClass.Rightful (convertAs (κ := κ) u r moved) :=
    (Run.advances_encodeRef covers_rightful r moved).bind fun v =>
      (Run.advances_decodeRef covers_rightful hu v).releasing _
  refine h.keeps (List.forall_mem_nil _) hx hadvances hu fun {r' w'} hrun => ?_
  obtain ⟨v, w₁, hv, hrest⟩ := run_bind_eq_ok.mp hrun
  obtain ⟨hproceeds₁, hb₁⟩ :=
    hencode.proceeds (Run.advances_encodeRef covers_rightful r moved) h.regular hv
  obtain ⟨w₂, hdecode, rfl⟩ := Run.releasing_eq_ok hrest
  have hregular₁ := hproceeds₁.later.regular
  obtain ⟨hproceeds₂, hb₂⟩ := (Run.converts_decodeRef u hb₁ hborrowed).proceeds
    (Run.advances_decodeRef covers_rightful hu v) hregular₁ hdecode
  have hcheck := Run.produces_decodeRef hu hregular₁ hb₁ hborrowed hdecode
  have hgiven : w₂.Balanced (fun _ => True) (v.object?.toList ++ (r'.toList ++ others)) :=
    hb₂.perm (List.perm_append_comm_assoc _ _ _)
  obtain ⟨hproceeds₃, -⟩ := Run.proceeds_releases hproceeds₂.later.regular hgiven
  exact hproceeds₃.checked_of_mem hgiven (fun _ hy => List.mem_append_right _ hy)
    (fun a ha => by simp [ha]) hcheck

theorem keeps_decode (h : Sound w [] others) (hu : u.Within ObjectClass.Rightful) {v : Value}
    (hv : v.object? = none) : Keeps w others (do return [(u, ← Run.decodeRef u v)]) (some []) := by
  have hborrowed : Borrowed w others v := fun a ha => by
    rw [hv] at ha
    cases ha
  exact h.keeps (List.forall_mem_nil _) (Run.converts_decodeRef u h.balanced hborrowed)
    (Run.advances_decodeRef covers_rightful hu v) hu fun hrun =>
      Run.produces_decodeRef hu h.regular h.balanced hborrowed hrun

/-! ### Containers that change -/

section Containers

variable {elem key value : RefType} {a v m k : Ref}

theorem keeps_push (h : Sound w [(.array elem, a), (elem, v)] others) :
    Keeps w others (do return [(.array elem, ← Arr.push a v)]) none := by
  have hb := h.balanced
  simp only [held_cons, held_nil, List.append_nil, List.append_assoc] at hb
  obtain ⟨ha, hv, -⟩ := List.forall_mem_cons.mp h.checked |>.imp_right List.forall_mem_cons.mp
  exact h.makes (List.forall_mem_nil _)
    (Arr.conserves_push hb (World.isArray_of_checked ha))
    (Arr.advances_push covers_rightful a v) (h.within _ List.mem_cons_self)
    (Arr.checked_push h.regular hb ha hv)

theorem keeps_set (h : Sound w [(.array elem, a), (elem, v)] others) (index : Int) :
    Keeps w others (do return [(.array elem, ← Arr.set a index v)])
      (some [(.array elem, a)]) := by
  have hb := h.balanced
  simp only [held_cons, held_nil, List.append_nil, List.append_assoc] at hb
  obtain ⟨ha, hv, -⟩ := List.forall_mem_cons.mp h.checked |>.imp_right List.forall_mem_cons.mp
  have harray := World.isArray_of_checked ha
  refine ⟨h.gains (List.forall_mem_nil _) (Arr.conserves_set hb harray)
    (Arr.advances_set covers_rightful a v index) (h.within _ List.mem_cons_self)
    (Arr.checked_set h.regular hb ha hv), fun hleft hrun => ?_⟩
  -- only the new element is given up
  cases hleft
  obtain rfl := Arr.world_of_set_error hb harray (error_of_return hrun)
  have hheld : w.Balanced (fun _ => True) (v.toList ++ (a.toList ++ others)) :=
    hb.perm (List.perm_append_comm_assoc _ _ _)
  obtain ⟨hproceeds, hb'⟩ := Run.proceeds_releases h.regular hheld
  refine ⟨hproceeds.of_append, ?_, h.regular, List.forall_mem_singleton.mpr ?_,
    List.forall_mem_singleton.mpr (h.within _ List.mem_cons_self)⟩
  · simpa only [held_cons, held_nil, List.append_nil] using hb'
  · exact hproceeds.checked_of_mem hheld (fun _ hy => List.mem_append_right _ hy)
      (fun x (hx : a = some x) => by simp [hx]) ha

theorem keeps_insert (h : Sound w [(.map key value, m), (key, k), (value, v)] others) :
    Keeps w others (do return [(.map key value, ← Dict.insert m k v)]) none := by
  have hb := h.balanced
  simp only [held_cons, held_nil, List.append_nil, List.append_assoc] at hb
  rw [← List.append_assoc k.toList] at hb
  have hm := h.checked (.map key value, m) (by simp)
  exact h.makes (List.forall_mem_nil _)
    (Dict.conserves_insert hb (World.isMap_of_checked hm))
    (Dict.advances_insert covers_rightful m k v) (h.within _ List.mem_cons_self)
    (Dict.checked_insert h.regular hb hm (h.checked (key, k) (by simp))
      (h.checked (value, v) (by simp)))

theorem keeps_remove (h : Sound w [(.map key value, m), (key, k)] others) :
    Keeps w others (do return [(.map key value, (← Dict.remove m k).1), (key, k)]) none := by
  have hb := h.balanced
  simp only [held_cons, held_nil, List.append_nil, List.append_assoc] at hb
  have hm := h.checked (.map key value, m) (by simp)
  have hk : ∀ x, k = some x → w.heap.Reachable (k.toList ++ others) x := by
    rintro x rfl
    exact .of_mem List.mem_cons_self
  have hx : Conserves (fun _ => True) w (held [(key, k)] ++ others) Option.toList m.toList
      (Prod.fst <$> Dict.remove m k) := by
    simp only [held_cons, held_nil, List.append_nil]
    exact (Dict.conserves_remove hb (World.isMap_of_checked hm) hk).map fun _ => rfl
  have hkeeps := h.makes (t := .map key value) (List.forall_mem_singleton.mpr (by simp)) hx
    ((Dict.advances_remove covers_rightful m k).map _) (h.within _ List.mem_cons_self)
    fun {r w'} hrun => by
      obtain ⟨⟨changed, found⟩, hremove, rfl⟩ := run_map_eq_ok.mp hrun
      exact Dict.checked_remove h.regular hb hk hm hremove
  simpa only [map_eq_pure_bind, bind_assoc, pure_bind] using hkeeps

/-! ### Reading -/

theorem keeps_get (h : Sound w [(.array elem, a)] others) (index : Int) :
    Keeps w others (do return [(elem, ← Arr.get elem a index), (.array elem, a)])
      (some [(.array elem, a)]) := by
  have helem : elem.Within ObjectClass.Rightful := h.within _ List.mem_cons_self
  have ha := h.checked _ List.mem_cons_self
  have hreach : ∀ x, a = some x → w.heap.Reachable (held [(.array elem, a)] ++ others) x := by
    rintro x rfl
    exact .of_mem List.mem_cons_self
  have hx : Conserves _ w _ _ _ (Arr.get elem a index) := Arr.conserves_get h.balanced hreach
  have hadvances := Arr.advances_get (κ := κ) covers_rightful helem a index
  refine h.keeps (fun d hd => hd) hx hadvances helem fun {r w'} hrun => ?_
  obtain ⟨hproceeds, -⟩ := hx.proceeds hadvances h.regular hrun
  have hmem := Arr.mem_of_get hrun
  refine hproceeds.checked h.balanced (fun _ hy => hy) (fun x hx => ?_)
    (World.elements_checked ha r hmem)
  exact Arr.reachable_elements hreach x (List.reduceOption_mem_iff.mpr (hx ▸ hmem))

theorem keeps_find (h : Sound w [(.map key value, m), (key, k)] others) :
    Keeps w others (do return [(value, ← Dict.get value m k), (.map key value, m), (key, k)])
      (some [(.map key value, m), (key, k)]) := by
  have hvalue : value.Within ObjectClass.Rightful := (h.within _ List.mem_cons_self).2
  have hm := h.checked _ List.mem_cons_self
  have hreach : ∀ x, m = some x →
      w.heap.Reachable (held [(.map key value, m), (key, k)] ++ others) x := by
    rintro x rfl
    exact .of_mem List.mem_cons_self
  have hx : Conserves _ w _ _ _ (Dict.get value m k) := Dict.conserves_get h.balanced hreach
  have hadvances := Dict.advances_get (κ := κ) covers_rightful hvalue m k
  refine h.keeps (fun d hd => hd) hx hadvances hvalue fun {r w'} hrun => ?_
  obtain ⟨hproceeds, -⟩ := hx.proceeds hadvances h.regular hrun
  obtain ⟨e, he, rfl⟩ := Dict.mem_of_get hrun
  refine hproceeds.checked h.balanced (fun _ hy => hy) (fun x hx => ?_)
    (World.entries_checked hm e he).2
  exact Dict.reachable_entries hreach x (List.mem_flatMap.mpr ⟨e, he, by simp [hx]⟩)

/-- Further references to what can be reached already. -/
theorem takes {new : Stack} (h : Sound w needs others)
    (hnew : ∀ d ∈ new, w.mismatch? d.1 d.2 = none ∧ d.1.Within ObjectClass.Rightful)
    (hreach : ∀ x ∈ held new, w.heap.Reachable (held needs ++ others) x) :
    w.Proceeds others { w with heap := w.heap.retainAll (held new) } ∧
      Sound { w with heap := w.heap.retainAll (held new) } (new ++ needs) others := by
  have hx : Conserves (fun _ => True) w (held needs ++ others) (fun _ => held new ++ []) []
      (Run.modifyHeap (·.retainAll (held new))) :=
    Run.conserves_retainAll [] [] h.balanced hreach
  have hrun : Run.modifyHeap (·.retainAll (held new)) w =
      (.ok (), { w with heap := w.heap.retainAll (held new) }) := rfl
  obtain ⟨hproceeds, hb⟩ := hx.proceeds (Run.advances_modifyHeap _) h.regular hrun
  refine ⟨hproceeds.of_append, ?_, h.regular, fun d hd => ?_, fun d hd => ?_⟩
  · rwa [List.append_nil, ← List.append_assoc, ← held_append] at hb
  · rcases List.mem_append.mp hd with hd | hd
    · exact hproceeds.checked h.balanced (fun _ hy => hy)
        (fun x hx => hreach x (Sound.mem_held hd x hx)) (hnew d hd).1
    · exact hproceeds.checked_of_mem h.balanced (fun _ hy => hy)
        (fun x hx => List.mem_append_left _ (Sound.mem_held hd x hx)) (h.checked d hd)
  · rcases List.mem_append.mp hd with hd | hd
    · exact (hnew d hd).2
    · exact h.within d hd

theorem keeps_elements (h : Sound w [(.array elem, a)] others) :
    Keeps w others
      (do return (← takeElements elem a).map (fun r => (elem, r)) ++ [(.array elem, a)]) none where
  done {made w'} hrun := by
    have ha := h.checked _ List.mem_cons_self
    have htake : takeElements elem a w = (.ok (w.elements a),
        { w with heap := w.heap.retainAll (held ((w.elements a).map fun r => (elem, r))) }) := by
      rw [takeElements, run_bind_of_ok (Arr.wellTyped_of_checked h.balanced ha).items,
        Run.forM_retainRef, held_elements, Run.reduceOption_eq_flatMap]
      rfl
    rw [run_bind_of_ok htake] at hrun
    cases hrun
    have hreach : ∀ x, a = some x → w.heap.Reachable (held [(.array elem, a)] ++ others) x := by
      rintro x rfl
      exact .of_mem List.mem_cons_self
    refine takes h (fun d hd => ?_) fun x hx => ?_
    · obtain ⟨r, hr, rfl⟩ := List.mem_map.mp hd
      exact ⟨World.elements_checked ha r hr, h.within (.array elem, a) List.mem_cons_self⟩
    · rw [held_elements, ← Run.reduceOption_eq_flatMap] at hx
      exact Arr.reachable_elements hreach x hx
  failed hleft := nomatch hleft

theorem keeps_entries (h : Sound w [(.map key value, m)] others) :
    Keeps w others
      (do return (← takeEntries key value m).flatMap (fun e => [(key, e.1), (value, e.2)]) ++
        [(.map key value, m)]) none where
  done {made w'} hrun := by
    have hm := h.checked _ List.mem_cons_self
    obtain ⟨hkey, hvalue⟩ := h.within _ List.mem_cons_self
    have htake : takeEntries key value m w = (.ok (w.entries m),
        { w with
          heap := w.heap.retainAll
            (held ((w.entries m).flatMap fun e => [(key, e.1), (value, e.2)])) }) := by
      have hitems := (Dict.wellTyped_of_checked h.regular h.balanced
        (fun x (hx : m = some x) => by simp [hx]) hm).items
      rw [takeEntries, run_bind_of_ok hitems, Run.forM_retainRef, held_entries,
        Run.reduceOption_eq_flatMap, List.flatMap_assoc]
      simp only [List.flatMap_cons, List.flatMap_nil, List.append_nil]
      rfl
    rw [run_bind_of_ok htake] at hrun
    cases hrun
    have hreach : ∀ x, m = some x → w.heap.Reachable (held [(.map key value, m)] ++ others) x := by
      rintro x rfl
      exact .of_mem List.mem_cons_self
    refine takes h (fun d hd => ?_) fun x hx => ?_
    · obtain ⟨e, he, hd⟩ := List.mem_flatMap.mp hd
      obtain ⟨hek, hev⟩ := World.entries_checked hm e he
      simp only [List.mem_cons, List.not_mem_nil, or_false] at hd
      rcases hd with rfl | rfl
      · exact ⟨hek, hkey⟩
      · exact ⟨hev, hvalue⟩
    · rw [held_entries] at hx
      exact Dict.reachable_entries hreach x hx
  failed hleft := nomatch hleft

end Containers

end Operation

/-- Whatever the operation, what comes of it passes. -/
theorem Operation.keeps {x : Run κ Stack} {left : Option Stack} (hop : Operation needs x left)
    (h : Sound w needs others) : Keeps w others x left := by
  cases hop with
  | null ht => exact keeps_null h ht
  | object hc hsuits htaken => exact keeps_object h hc hsuits htaken
  | array helem elems => exact keeps_array h helem
  | map hkey hvalue pairs => exact keeps_map h hkey hvalue
  | clone => exact keeps_clone h
  | drop => exact keeps_drop h
  | upcast => exact keeps_upcast h
  | downcast hu => exact keeps_downcast h hu
  | view hu => exact keeps_view h hu
  | pass hu => exact keeps_pass h hu
  | convert hu moved => exact keeps_convert h hu moved
  | decode hu hv => exact keeps_decode h hu hv
  | push => exact keeps_push h
  | set index => exact keeps_set h index
  | insert => exact keeps_insert h
  | remove => exact keeps_remove h
  | get index => exact keeps_get h index
  | find => exact keeps_find h
  | elements => exact keeps_elements h
  | entries => exact keeps_entries h

/-! ## Programs -/

/-- One step of a program leaves every reference such that it passes. -/
theorem Step.sound {s s' : World κ × Stack} (hstep : Step s s') (h : Sound s.1 s.2 others) :
    Sound s'.1 s'.2 others := by
  cases hstep with
  | reorder horder => exact h.perm horder
  | succeeds hop hrun =>
      obtain ⟨hproceeds, hmade⟩ := (hop.keeps h.front).done hrun
      exact h.rejoin hproceeds hmade
  | fails hop hrun =>
      obtain ⟨hproceeds, hleft⟩ := (hop.keeps h.front).failed rfl hrun
      exact h.rejoin hproceeds hleft

/-- So does any number of steps. -/
theorem sound_of_steps {s s' : World κ × Stack} (hsteps : ReflTransGen Step s s')
    (h : Sound s.1 s.2 others) : Sound s'.1 s'.2 others := by
  induction hsteps with
  | refl => exact h
  | tail _ hstep ih => exact hstep.sound ih

/-- A step of which the result can be computed. -/
theorem Step.of_result {x : Run κ Stack} {left : Option Stack} (hop : Operation needs x left)
    (made rest : Stack) (hresult : (x w).1.toOption = some made) :
    Step (w, needs ++ rest) ((x w).2, made ++ rest) := by
  refine .succeeds hop ?_
  rcases hx : x w with ⟨fault | answer, w₁⟩
  · rw [hx] at hresult
    cases hresult
  · rw [hx] at hresult
    cases hresult
    rfl

/-- Whatever a program does with its references, what its typed arrays and maps hold is of their types,
and reading them never tells otherwise. -/
theorem containers_wellTyped (h : Sound w stack others)
    (hsteps : ReflTransGen Step (w, stack) (w', kept)) :
    (∀ elem r, (.array elem, r) ∈ kept → Arr.WellTyped w' elem r) ∧
      ∀ key value r, (.map key value, r) ∈ kept → Dict.WellTyped w' key value r := by
  have h' := sound_of_steps hsteps h
  refine ⟨fun elem r hr => ?_, fun key value r hr => ?_⟩
  · exact Arr.wellTyped_of_checked h'.balanced (h'.checked _ hr)
  · refine Dict.wellTyped_of_checked h'.regular h'.balanced (fun a ha => ?_) (h'.checked _ hr)
    exact List.mem_append_left _ (Sound.mem_held hr a ha)

/-- An array of strings that is also referred to as an array of any objects stays one of strings when a
number is appended to the latter. -/
theorem containers_wellTyped_shared : ∃ w' : World Unit,
    ReflTransGen Step (World.initial, [])
      (w', [(.array .object, some ⟨3⟩), (.array .string, some ⟨1⟩)]) ∧
    Arr.WellTyped w' .string (some ⟨1⟩) ∧ Arr.WellTyped w' .object (some ⟨3⟩) := by
  have hstring : ObjectClass.string.Rightful := ObjectClass.rightful_of_mem_builtins (by decide)
  have hstrings : RefType.string.Within ObjectClass.Rightful := hstring
  let text : Run Unit Stack := do
    return [(.string, some (← Run.create .string (.text "x")))]
  let array : Run Unit Stack := do
    return [(.array .string, ← Arr.ofList [some ⟨0⟩])]
  let pass : Run Unit Stack := do
    return [(.array .object, ← passAs (.array .object) (some ⟨1⟩)), (.array .string, some ⟨1⟩)]
  let number : Run Unit Stack := do
    return [(.object, ← Run.decodeRef .object (.int (MachineInt.wrap .i64 7)))]
  let push : Run Unit Stack := do
    return [(.array .object, ← Arr.push (some ⟨1⟩) (some ⟨2⟩))]
  let w₁ := (text World.initial).2
  let w₂ := (array w₁).2
  let w₃ := (pass w₂).2
  let w₄ := (number w₃).2
  have hnew : Operation [] text none := .object hstring trivial .rfl
  have h₁ : Step (World.initial, []) (w₁, [(.string, some ⟨0⟩)]) :=
    Step.of_result hnew [(.string, some ⟨0⟩)] [] (by decide +kernel)
  have h₂ : Step (w₁, [(.string, some ⟨0⟩)]) (w₂, [(.array .string, some ⟨1⟩)]) :=
    Step.of_result (.array hstrings [some ⟨0⟩]) [(.array .string, some ⟨1⟩)] [] (by decide +kernel)
  have h₃ : Step (w₂, [(.array .string, some ⟨1⟩)])
      (w₃, [(.array .object, some ⟨1⟩), (.array .string, some ⟨1⟩)]) :=
    Step.of_result (.pass (u := .array .object) trivial)
      [(.array .object, some ⟨1⟩), (.array .string, some ⟨1⟩)] [] (by decide +kernel)
  have h₄ : Step (w₃, [(.array .object, some ⟨1⟩), (.array .string, some ⟨1⟩)])
      (w₄, [(.object, some ⟨2⟩), (.array .object, some ⟨1⟩), (.array .string, some ⟨1⟩)]) :=
    Step.of_result (.decode (u := .object) trivial rfl) [(.object, some ⟨2⟩)]
      [(.array .object, some ⟨1⟩), (.array .string, some ⟨1⟩)] (by decide +kernel)
  have h₅ : Step (w₄, [(.object, some ⟨2⟩), (.array .object, some ⟨1⟩), (.array .string, some ⟨1⟩)])
      (w₄, [(.array .object, some ⟨1⟩), (.object, some ⟨2⟩), (.array .string, some ⟨1⟩)]) :=
    .reorder (.swap _ _ _)
  have h₆ : Step (w₄, [(.array .object, some ⟨1⟩), (.object, some ⟨2⟩), (.array .string, some ⟨1⟩)])
      ((push w₄).2, [(.array .object, some ⟨3⟩), (.array .string, some ⟨1⟩)]) :=
    Step.of_result .push [(.array .object, some ⟨3⟩)] [(.array .string, some ⟨1⟩)]
      (by decide +kernel)
  have hsteps : ReflTransGen Step (World.initial, [])
      ((push w₄).2, [(.array .object, some ⟨3⟩), (.array .string, some ⟨1⟩)]) :=
    .head h₁ (.head h₂ (.head h₃ (.head h₄ (.head h₅ (.single h₆)))))
  have hsound : Sound (World.initial : World Unit) [] [] :=
    ⟨.of_empty rfl, .initial, List.forall_mem_nil _, List.forall_mem_nil _⟩
  have hall := containers_wellTyped hsound hsteps
  exact ⟨_, hsteps, hall.1 _ _ (by simp), hall.1 _ _ (by simp)⟩

end ObjectRuntime.Views
