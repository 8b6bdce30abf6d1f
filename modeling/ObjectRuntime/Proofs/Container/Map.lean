import ObjectRuntime.Container.Map
import ObjectRuntime.Proofs.Container.Unique
set_option autoImplicit false

/-!
# Maps conserve references

What the operations on maps do with the references that they are given.  An entry whose key is there
already keeps its own key, so of a new entry the key is given up and the value that it replaces.
-/

namespace ObjectRuntime

open Run (Conserves Quiet entryReferences)
open World (Balanced Since)

variable {κ : Type} {P : κ → Prop} {w w' : World κ} {others : List ObjId} {id : ObjId}
  {r key value : Ref} {entries : List (Ref × Ref)}

/-- A reference to a map, or to nothing. -/
def World.IsMap (w : World κ) (r : Ref) : Prop :=
  ∀ id, r = some id → ∃ entries, w.payload? id = some (.map entries)

/-! ## Entries -/

/-- What is left over when a value has been put under a key. -/
def leftOver (same : Ref → Ref → Bool) (key : Ref) (entries : List (Ref × Ref)) : List ObjId :=
  match entries.find? fun e => same e.1 key with
  | some e => key.toList ++ e.2.toList
  | none => []

theorem insertEntry_perm (same : Ref → Ref → Bool) (key value : Ref) :
    ∀ entries : List (Ref × Ref),
      List.Perm ((insertEntry same key value entries).flatMap entryReferences ++
          leftOver same key entries)
        (entries.flatMap entryReferences ++ (key.toList ++ value.toList))
  | [] => by simp [insertEntry, leftOver, entryReferences]
  | (k, v) :: entries => by
      have ih := insertEntry_perm same key value entries
      refine List.perm_iff_count.mpr fun x => ?_
      have ihx := ih.count_eq x
      by_cases hsame : same k key
      · simp only [insertEntry, leftOver, List.find?_cons, hsame, if_true, List.flatMap_cons,
          entryReferences, List.count_append]
        omega
      · simp only [leftOver] at ihx
        simp only [insertEntry, leftOver, List.find?_cons, hsame, if_false, Bool.false_eq_true,
          List.flatMap_cons, entryReferences, List.count_append] at ihx ⊢
        omega

theorem eraseP_perm {p : Ref × Ref → Bool} {e : Ref × Ref} (he : entries.find? p = some e) :
    List.Perm ((entries.eraseP p).flatMap entryReferences ++ (e.1.toList ++ e.2.toList))
      (entries.flatMap entryReferences) := by
  induction entries with
  | nil => cases he
  | cons d entries ih =>
      rw [List.find?_cons] at he
      cases hd : p d with
      | true =>
          simp only [hd, Option.some.injEq] at he
          subst he
          rw [List.eraseP_cons_of_pos hd, List.flatMap_cons]
          exact List.perm_append_comm
      | false =>
          simp only [hd] at he
          rw [List.eraseP_cons_of_neg (by simp [hd]), List.flatMap_cons, List.flatMap_cons,
            List.append_assoc]
          exact (ih he).append_left _

namespace Dict

theorem holds_entries (hmap : w.IsMap r) : w.Holds r (.map (w.entries r)) := by
  cases r with
  | none => rfl
  | some id =>
      obtain ⟨entries, hcontent⟩ := hmap id rfl
      simp [World.Holds, World.entries, hcontent]

/-- The entries of a map whose content is known. -/
theorem entries_of_payload (hcontent : w.payload? id = some (.map entries)) :
    w.entries (some id) = entries := by
  simp [World.entries, hcontent]

/-- A map with an entry is there. -/
theorem exists_of_entry {e : Ref × Ref} (he : e ∈ w.entries r) :
    ∃ id entries, r = some id ∧ w.payload? id = some (.map entries) := by
  cases r with
  | none => simp [World.entries] at he
  | some id =>
      simp only [World.entries, Option.bind_some] at he
      split at he
      · rename_i entries hcontent
        exact ⟨id, entries, rfl, hcontent⟩
      · cases he

/-- References are added to one entry after another. -/
theorem forM_retainEntry (entries : List (Ref × Ref)) :
    (entries.forM fun e => do
      Run.retainRef e.1
      Run.retainRef e.2 : Run κ Unit) =
        Run.modifyHeap (·.retainAll (entries.flatMap entryReferences)) := by
  induction entries with
  | nil => rfl
  | cons e entries ih =>
      rw [List.forM, ih]
      obtain ⟨k, v⟩ := e
      cases k <;> cases v <;> rfl

/-- Obtaining a map with one owner is what it is for all containers. -/
theorem makeUnique_eq (r : Ref) (w : World κ) :
    makeUnique r w = Run.unique .map (.map (w.entries r)) r w := by
  cases r with
  | none => rfl
  | some a =>
      rw [makeUnique, Run.unique, run_get_bind, run_get_bind]
      split
      · rfl
      · simp only [forM_retainEntry]
        rfl

theorem conserves_makeUnique (hb : w.Balanced P (r.toList ++ others)) (hmap : w.IsMap r) :
    Conserves P w others (fun id => [id]) r.toList (makeUnique r) :=
  (Run.conserves_unique hb (holds_entries hmap) rfl).congr (makeUnique_eq r w)

/-- The caller holds the only reference to a map with the same entries. -/
theorem one_of_makeUnique (hb : w.Balanced P (r.toList ++ others)) (hmap : w.IsMap r)
    (hrun : makeUnique r w = (.ok id, w')) :
    w'.heap.count id = 1 ∧ w'.payload? id = some (.map (w.entries r)) :=
  Run.one_of_unique hb (holds_entries hmap) rfl (makeUnique_eq r w ▸ hrun)

theorem makeUnique_of_known {first : Nat} (hc : w.types.classIndex? .map = some first) (r : Ref) :
    ∃ id w', makeUnique r w = (.ok id, w') := by
  rw [makeUnique_eq]
  exact Run.unique_of_known hc _ r

/-! ## Reading -/

theorem quiet_askLookup (r key : Ref) : Quiet (askLookup r key : Run κ Unit) := by
  refine Run.quiet_get fun w => ?_
  split
  · exact Run.quiet_askKey key
  · exact Run.quiet_pure ()

/-- The classes that reading all entries looks at. -/
def askItems (keyType valueType : RefType) (r : Ref) : Run κ Unit := do
  Run.askWhile
    (fun (e : Ref × Ref) => do
      Run.askType keyType e.1
      Run.askType valueType e.2)
    (fun w e => (w.mismatch? keyType e.1).isNone && (w.mismatch? valueType e.2).isNone)
    ((← MonadState.get).entries r)

theorem items_eq (keyType valueType : RefType) (r : Ref) :
    (items keyType valueType r : Run κ (List (Ref × Ref))) = (do
      askItems keyType valueType r
      Run.ofFallible (iterate (← MonadState.get) keyType valueType r)) := rfl

theorem quiet_askItems (keyType valueType : RefType) (r : Ref) :
    Quiet (askItems keyType valueType r : Run κ Unit) :=
  Run.quiet_get fun _ => Run.quiet_askWhile (fun (e : Ref × Ref) =>
    (Run.quiet_askType keyType e.1).bind fun _ => Run.quiet_askType valueType e.2) _ _

/-- Entries of the types are all passed on. -/
theorem iterate_of_checked {keyType valueType : RefType}
    (h : ∀ e ∈ w.entries r, w.mismatch? keyType e.1 = none ∧ w.mismatch? valueType e.2 = none) :
    iterate w keyType valueType r = .ok (w.entries r) := by
  refine mapM_eq_ok (List.forall₂_same.mpr fun e he => ?_)
  obtain ⟨hkey, hvalue⟩ := h e he
  simp only [World.downcast, hkey, hvalue]

/-- The value that is found is in the map. -/
theorem mem_of_find? {v : Ref} (hfind : find? w r key = some v) : ∃ e ∈ w.entries r, e.2 = v := by
  obtain ⟨e, he, rfl⟩ := Option.map_eq_some_iff.mp hfind
  exact ⟨e, List.mem_of_find?_eq_some he, rfl⟩

/-- A value that is read is the caller's too. -/
theorem conserves_get {t : RefType} (hb : w.Balanced P others)
    (hr : ∀ id, r = some id → w.heap.Reachable others id) :
    Conserves P w others Option.toList [] (get t r key) := by
  refine (Run.quiet_askKey key).then_conserves [] hb fun _ w₁ _ _ hsince₁ hb₁ => Run.conserves_get ?_
  cases hfind : find? w₁ r key with
  | none => exact Run.conserves_throw hb₁
  | some v =>
      refine (Run.quiet_downcast _ _).then_conserves [] hb₁ fun e w₂ hrun _ hsince₂ hb₂ => ?_
      refine (Run.conserves_retainRef [] [] hb₂ fun x hx => ?_).bind fun _ w₃ _ _ hb₃ =>
        Run.conserves_pure (by simpa using hb₃)
      rw [Run.eq_of_downcast hrun] at hx
      obtain ⟨d, hd, rfl⟩ := mem_of_find? hfind
      cases r with
      | none => simp [World.entries] at hd
      | some a =>
          exact hsince₂.reachable
            (Run.reachable_entry (hsince₁.reachable (hr a rfl)) hd (.inr hx))

/-! ## Changes -/

/-- A new map takes over its entries; what they replace is given up. -/
theorem conserves_ofList {pairs : List (Ref × Ref)}
    (hb : w.Balanced P (pairs.flatMap entryReferences ++ others)) :
    Conserves P w others Option.toList [] (ofList pairs) := by
  refine (Run.conserves_collectEntries hb).bind fun entries w₁ _ _ hb₁ => ?_
  have hcreate : Conserves P w₁ others (fun id => [id]) [] (Run.create .map (.map entries)) :=
    Run.conserves_create [] hb₁ rfl
  exact hcreate.bind fun id w₂ _ _ hb₂ => Run.conserves_pure hb₂

/-! ### Insertion -/

/-- Puts a value under a key of a map with one owner. -/
def put (id : ObjId) (key value : Ref) : Run κ Unit := do
  let w ← MonadState.get
  Run.modifyHeap
    (·.setPayload id (.map (insertEntry w.sameKey key value (w.entries (some id)))))
  Run.releaseAll (leftOver w.sameKey key (w.entries (some id)))

/-- The classes that an insertion looks at. -/
def askInsert (key : Ref) : Run κ Unit := do
  let _ ← Run.touch .map
  Run.askKey key

/-- An insertion looks at the key, obtains a map with one owner and changes it. -/
theorem insert_eq (r key value : Ref) : (insert r key value : Run κ Ref) = do
    Run.releasingOnFault (key.toList ++ value.toList) (askInsert key)
    let id ← makeUnique r
    put id key value
    return some id := by
  refine congrArg _ (funext fun _ => congrArg _ (funext fun id => funext fun w => ?_))
  rw [run_get_bind, put, bind_assoc, run_get_bind, bind_assoc, leftOver]
  cases hfind : (w.entries (some id)).find? fun e => w.sameKey e.1 key with
  | none => rfl
  | some e => rfl

theorem quiet_askInsert (key : Ref) : Quiet (askInsert key : Run κ Unit) :=
  (Run.quiet_touch .map).bind fun _ => Run.quiet_askKey key

/-- An insertion has looked up the class of maps. -/
theorem known_of_askInsert (hrun : askInsert key w = (.ok (), w')) :
    ∃ first, w'.types.classIndex? .map = some first := by
  obtain ⟨first, w₁, htouch, hask⟩ := run_bind_eq_ok.mp hrun
  have hknown := (Run.quiet_askKey key w₁).2 (Run.known_of_touch htouch)
  rw [hask] at hknown
  exact ⟨first, hknown⟩

/-- A map is what it was in a world with the same objects. -/
theorem isMap_of_heap (hmap : w.IsMap r) (hheap : w'.heap = w.heap) : w'.IsMap r :=
  fun a ha => World.payload?_of_heap hheap a ▸ hmap a ha

theorem entries_of_heap (hheap : w'.heap = w.heap) (r : Ref) : w'.entries r = w.entries r := by
  rw [World.entries, World.entries, funext (World.payload?_of_heap hheap)]

theorem conserves_put (keeps : List ObjId)
    (hb : w.Balanced P (id :: ((key.toList ++ value.toList) ++ others)))
    (hone : w.heap.count id = 1) (hcontent : w.payload? id = some (.map entries)) :
    Conserves P w others (fun _ => [id]) keeps (put id key value) := by
  refine Run.conserves_get ?_
  rw [entries_of_payload hcontent]
  have hset : Conserves P w others (fun _ => id :: leftOver w.sameKey key entries) keeps
      (Run.modifyHeap (·.setPayload id (.map (insertEntry w.sameKey key value entries)))) :=
    Run.conserves_setPayload _ _ _ hb hone hcontent rfl (hb.allows_map hcontent _)
      (insertEntry_perm w.sameKey key value entries)
  exact hset.bind fun _ w₁ _ _ hb₁ =>
    Run.conserves_releases [id] keeps (hb₁.perm List.perm_middle)

/-- Putting a value under a key. -/
theorem conserves_insert
    (hb : w.Balanced P (r.toList ++ ((key.toList ++ value.toList) ++ others)))
    (hmap : w.IsMap r) : Conserves P w others Option.toList r.toList (insert r key value) := by
  rw [insert_eq]
  have hask : Conserves P w others (fun _ => (key.toList ++ value.toList) ++ r.toList)
      ([] ++ r.toList) (Run.releasingOnFault (key.toList ++ value.toList) (askInsert key)) :=
    ((quiet_askInsert key).holding _ (hb.perm (List.perm_append_comm_assoc _ _ _))).claim
  refine hask.bind fun _ w₁ hrun _ hb₁ => ?_
  have hasked := Run.releasingOnFault_eq_ok.mp hrun
  obtain ⟨first, hfirst⟩ := known_of_askInsert hasked
  have hheap := (quiet_askInsert key w).1
  rw [hasked] at hheap
  have hmap₁ := isMap_of_heap hmap hheap
  rw [List.append_assoc] at hb₁
  have hb₁' : w₁.Balanced P (r.toList ++ ((key.toList ++ value.toList) ++ others)) :=
    hb₁.perm (List.perm_append_comm_assoc _ _ _)
  have hunique : Conserves P w₁ others (fun id => [id] ++ (key.toList ++ value.toList)) r.toList
      (makeUnique r) :=
    (conserves_makeUnique hb₁' hmap₁).claim.of_succeeds (makeUnique_of_known hfirst r) _
  refine hunique.bind fun id w₂ hmake _ hb₂ => ?_
  obtain ⟨hone, hcontent⟩ := one_of_makeUnique hb₁' hmap₁ hmake
  exact (conserves_put _ hb₂ hone hcontent).bind fun _ w₃ _ _ hb₃ => Run.conserves_pure hb₃

/-- A map into which an entry is put is the caller's alone when its content changes; what is left
over is given up. -/
theorem insert_inv {r' : Ref} (hb : w.Balanced P (r.toList ++ ((key.toList ++ value.toList) ++ others)))
    (hmap : w.IsMap r) (hrun : insert r key value w = (.ok r', w')) :
    ∃ id w₁ w₂, r' = some id ∧ askInsert key w = (.ok (), w₁) ∧ w₁.heap = w.heap ∧
      makeUnique r w₁ = (.ok id, w₂) ∧
      w' = { w₂ with
        heap := (leftOver w₂.sameKey key (w.entries r)).foldl Heap.release
          (w₂.heap.setPayload id (.map (insertEntry w₂.sameKey key value (w.entries r)))) } := by
  rw [insert_eq] at hrun
  obtain ⟨_, w₁, hask, hrest⟩ := run_bind_eq_ok.mp hrun
  have hasked := Run.releasingOnFault_eq_ok.mp hask
  have hheap := (quiet_askInsert key w).1
  have hb₁ := (quiet_askInsert key).balanced hb
  rw [hasked] at hheap hb₁
  obtain ⟨id, w₂, hmake, hchange⟩ := run_bind_eq_ok.mp hrest
  obtain ⟨_, w₃, hput, hdone⟩ := run_bind_eq_ok.mp hchange
  cases hdone
  have hcontent := (one_of_makeUnique hb₁ (isMap_of_heap hmap hheap) hmake).2
  rw [put, run_get_bind, entries_of_payload hcontent, entries_of_heap hheap] at hput
  cases hput
  exact ⟨id, w₁, w₂, rfl, hasked, hheap, hmake, rfl⟩

theorem insertEntry_congr {same same' : Ref → Ref → Bool} :
    ∀ {entries : List (Ref × Ref)}, (∀ e ∈ entries, same' e.1 key = same e.1 key) →
      insertEntry same' key value entries = insertEntry same key value entries
  | [], _ => rfl
  | (k, v) :: entries, hsame => by
      obtain ⟨hhead, hrest⟩ := List.forall_mem_cons.mp hsame
      rw [insertEntry, insertEntry, hhead, insertEntry_congr hrest]

/-- Keys compare as they did if their contents are what they were. -/
theorem sameKey_eq {a b : Ref} (ha : ∀ id, a = some id → w'.payload? id = w.payload? id)
    (hb : ∀ id, b = some id → w'.payload? id = w.payload? id) :
    w'.sameKey a b = w.sameKey a b := by
  have htext : ∀ {a : Ref}, (∀ id, a = some id → w'.payload? id = w.payload? id) →
      a.bind w'.text? = a.bind w.text? := by
    intro a ha
    cases a with
    | none => rfl
    | some id => simp only [Option.bind_some, World.text?, ha id rfl]
  rw [World.sameKey, World.sameKey, htext ha, htext hb]

/-- Keys compare as they did once the map has one owner. -/
theorem sameKey_of_makeUnique {held : List ObjId} (hb : w.Balanced P (r.toList ++ held))
    (hmap : w.IsMap r) (hkey : ∀ x, key = some x → w.heap.Reachable held x)
    (hrun : makeUnique r w = (.ok id, w')) :
    ∀ e ∈ w.entries r, w'.sameKey e.1 key = w.sameKey e.1 key := by
  obtain ⟨hsince, hb'⟩ := (conserves_makeUnique hb hmap).ok _ _ hrun
  have hentries := entries_of_payload (one_of_makeUnique hb hmap hrun).2
  rw [makeUnique_eq] at hrun
  intro e he
  obtain ⟨a, -, rfl, -⟩ := exists_of_entry he
  refine sameKey_eq (fun x hx => ?_) fun x hx =>
    hsince.payload? hb (hkey x hx) fun _ hy => List.mem_append_right _ hy
  -- the key of the entry is in the map before and after, and no content has changed
  obtain ⟨o, ho⟩ := hb.alive (Run.reachable_entry (.of_mem List.mem_cons_self) he (.inl hx))
  obtain ⟨o', ho'⟩ := hb'.alive
    (Run.reachable_entry (.of_mem List.mem_cons_self) (hentries.symm ▸ he) (.inl hx))
  have hold : w.payload? x = some o.payload := by simp [World.payload?, ho]
  have hnew : w'.payload? x = some o'.payload := by simp [World.payload?, ho']
  rw [hold, hnew, Run.payload?_of_unique hrun hold hnew]

/-! ### Removal -/

/-- Takes an entry out of a map with one owner. -/
def takeOut (id : ObjId) (key : Ref) (e : Ref × Ref) : Run κ Unit := do
  let w ← MonadState.get
  Run.modifyHeap
    (·.setPayload id (.map ((w.entries (some id)).eraseP fun e => w.sameKey e.1 key)))
  Run.releaseAll (e.1.toList ++ e.2.toList)

/-- A removal looks for the entry, obtains a map with one owner and changes it. -/
theorem remove_eq (r key : Ref) : (remove r key : Run κ (Ref × Bool)) = do
    askLookup r key
    let w ← MonadState.get
    match (w.entries r).find? fun e => w.sameKey e.1 key with
    | none => return (r, false)
    | some e =>
      let id ← makeUnique r
      takeOut id key e
      return (some id, true) := by
  refine congrArg _ (funext fun _ => funext fun w => ?_)
  rw [run_get_bind, run_get_bind]
  cases hfind : (w.entries r).find? fun e => w.sameKey e.1 key with
  | none => rfl
  | some e => rfl

theorem eraseP_congr {p q : Ref × Ref → Bool} :
    ∀ {entries : List (Ref × Ref)}, (∀ e ∈ entries, q e = p e) →
      entries.eraseP q = entries.eraseP p
  | [], _ => rfl
  | e :: entries, hsame => by
      obtain ⟨hhead, hrest⟩ := List.forall_mem_cons.mp hsame
      rw [List.eraseP_cons, List.eraseP_cons, hhead, eraseP_congr hrest]

variable {e : Ref × Ref}

theorem conserves_takeOut (keeps : List ObjId) (hb : w.Balanced P (id :: others))
    (hone : w.heap.count id = 1) (hcontent : w.payload? id = some (.map entries))
    (he : (entries.find? fun e => w.sameKey e.1 key) = some e) :
    Conserves P w others (fun _ => [id]) keeps (takeOut id key e) := by
  refine Run.conserves_get ?_
  rw [entries_of_payload hcontent]
  have hset : Conserves P w others (fun _ => id :: (e.1.toList ++ e.2.toList)) keeps
      (Run.modifyHeap (·.setPayload id (.map (entries.eraseP fun e => w.sameKey e.1 key)))) :=
    Run.conserves_setPayload [] _ _ hb hone hcontent rfl (hb.allows_map hcontent _)
      ((eraseP_perm he).trans (.of_eq (List.append_nil _).symm))
  exact hset.bind fun _ w₁ _ _ hb₁ =>
    Run.conserves_releases [id] keeps (hb₁.perm List.perm_middle)

/-- The entry that is found first is the same once the map has one owner. -/
theorem find?_of_makeUnique (hb : w.Balanced P (r.toList ++ others)) (hmap : w.IsMap r)
    (hkey : ∀ x, key = some x → w.heap.Reachable others x)
    (hrun : makeUnique r w = (.ok id, w')) :
    ((w.entries r).find? fun e => w'.sameKey e.1 key) =
      (w.entries r).find? fun e => w.sameKey e.1 key :=
  List.find?_congr (sameKey_of_makeUnique hb hmap hkey hrun)

/-- Removing the entry with a key. -/
theorem conserves_remove (hb : w.Balanced P (r.toList ++ others)) (hmap : w.IsMap r)
    (hkey : ∀ x, key = some x → w.heap.Reachable others x) :
    Conserves P w others (·.1.toList) r.toList (remove r key) := by
  rw [remove_eq]
  refine (quiet_askLookup r key).then_conserves _ hb fun _ w₁ _ hheap hsince hb₁ =>
    Run.conserves_get ?_
  have hmap₁ := isMap_of_heap hmap hheap
  have hkey₁ := fun x hx => hsince.reachable (hkey x hx)
  cases hfind : (w₁.entries r).find? fun e => w₁.sameKey e.1 key with
  | none => exact Run.conserves_pure hb₁
  | some e =>
      obtain ⟨a, entries, rfl, hcontent⟩ := exists_of_entry (List.mem_of_find?_eq_some hfind)
      obtain ⟨first, hfirst⟩ := hb₁.allowed hcontent
      refine ((conserves_makeUnique hb₁ hmap₁).of_succeeds (makeUnique_of_known hfirst _) _).bind
        fun id w₂ hmake _ hb₂ => ?_
      obtain ⟨hone, hcontent₂⟩ := one_of_makeUnique hb₁ hmap₁ hmake
      have hfind₂ := (find?_of_makeUnique hb₁ hmap₁ hkey₁ hmake).trans hfind
      exact (conserves_takeOut _ hb₂ hone hcontent₂ hfind₂).bind fun _ w₃ _ _ hb₃ =>
        Run.conserves_pure hb₃

/-- A map from which an entry is removed is the caller's alone when its content changes.  Without such
an entry only the key has been looked at. -/
theorem remove_inv {r' : Ref} {found : Bool} (hb : w.Balanced P (r.toList ++ others))
    (hmap : w.IsMap r) (hrun : remove r key w = (.ok (r', found), w')) :
    ∃ w₁, askLookup r key w = (.ok (), w₁) ∧ w₁.heap = w.heap ∧
      match (w.entries r).find? fun e => w₁.sameKey e.1 key with
      | none => r' = r ∧ found = false ∧ w' = w₁
      | some e => found = true ∧ ∃ id w₂, r' = some id ∧ makeUnique r w₁ = (.ok id, w₂) ∧
          w' = { w₂ with
            heap := (e.1.toList ++ e.2.toList).foldl Heap.release
              (w₂.heap.setPayload id
                (.map ((w.entries r).eraseP fun e => w₂.sameKey e.1 key))) } := by
  rw [remove_eq] at hrun
  obtain ⟨_, w₁, hask, hrest⟩ := run_bind_eq_ok.mp hrun
  have hheap := (quiet_askLookup r key w).1
  have hb₁ := (quiet_askLookup r key).balanced hb
  rw [hask] at hheap hb₁
  rw [run_get_bind, entries_of_heap hheap] at hrest
  refine ⟨w₁, hask, hheap, ?_⟩
  cases hfind : (w.entries r).find? fun e => w₁.sameKey e.1 key with
  | none =>
      rw [hfind] at hrest
      cases hrest
      exact ⟨rfl, rfl, rfl⟩
  | some e =>
      rw [hfind] at hrest
      obtain ⟨id, w₂, hmake, hchange⟩ := run_bind_eq_ok.mp hrest
      obtain ⟨_, w₃, htake, hdone⟩ := run_bind_eq_ok.mp hchange
      cases hdone
      have hcontent := (one_of_makeUnique hb₁ (isMap_of_heap hmap hheap) hmake).2
      rw [takeOut, run_get_bind, entries_of_payload hcontent, entries_of_heap hheap] at htake
      cases htake
      exact ⟨rfl, id, w₂, rfl, hmake, rfl⟩

/-- A value that has been read is in the map. -/
theorem mem_of_get {t : RefType} {v : Ref} (hrun : get t r key w = (.ok v, w')) :
    ∃ e ∈ w.entries r, e.2 = v := by
  obtain ⟨_, w₁, hask, hrest⟩ := run_bind_eq_ok.mp hrun
  have hheap := (Run.quiet_askKey key w).1
  rw [hask] at hheap
  rw [run_get_bind] at hrest
  cases hfind : find? w₁ r key with
  | none =>
      rw [hfind] at hrest
      cases hrest
  | some v₁ =>
      rw [hfind] at hrest
      obtain ⟨v₂, w₂, hdowncast, hrest⟩ := run_bind_eq_ok.mp hrest
      obtain ⟨_, w₃, -, hdone⟩ := run_bind_eq_ok.mp hrest
      cases hdone
      rw [Run.eq_of_downcast hdowncast, ← entries_of_heap hheap]
      exact mem_of_find? hfind

end Dict

end ObjectRuntime
