import ObjectRuntime.Conversion
import ObjectRuntime.Proofs.Sequencing
import ObjectRuntime.Proofs.TypeTable.Advancing
import ObjectRuntime.Tensor.Blob
set_option autoImplicit false

/-!
# What operations do to types and schemas

Conversions and the making of objects look classes up, and do nothing else to the table of types or
to the schemas.  This holds whether or not they fail, and whatever the world is like.
-/

namespace ObjectRuntime

variable {κ α β : Type} {S : ObjectClass → Prop} {w w' w'' : World κ}

namespace World

/-- Nothing has happened to types and schemas but that some classes in `S` have been looked up. -/
structure Advanced (S : ObjectClass → Prop) (w w' : World κ) : Prop where
  types : w.types.Advanced S w'.types
  schemas : w'.schemas = w.schemas

namespace Advanced

theorem refl (S : ObjectClass → Prop) (w : World κ) : Advanced S w w := ⟨.refl S w.types, rfl⟩

theorem trans (h : Advanced S w w') (h' : Advanced S w' w'') : Advanced S w w'' :=
  ⟨h.types.trans h'.types, h'.schemas.trans h.schemas⟩

end Advanced

end World

open World (Advanced)

/-- The built-in classes and the root are among those in `S`. -/
structure ObjectClass.Covers (S : ObjectClass → Prop) : Prop where
  builtins : ∀ c ∈ ObjectClass.builtins, S c
  root : S .root

/-- The classes that a static type names are among those in `S`. -/
def RefType.Within (S : ObjectClass → Prop) : RefType → Prop
  | .named _ cls => S cls
  | .array elem => elem.Within S
  | .map key value => key.Within S ∧ value.Within S

theorem RefType.Within.cls {t : RefType} (h : t.Within S) (hS : ObjectClass.Covers S) :
    S t.cls := by
  cases t with
  | named name cls => exact h
  | array elem => exact hS.builtins .array (by decide)
  | map key value => exact hS.builtins .map (by decide)

/-- The classes that a type names are among those in `S`. -/
def ValueType.Within (S : ObjectClass → Prop) : ValueType → Prop
  | .ref r => r.Within S
  | .option t => t.Within S
  | .variant a b => a.Within S ∧ b.Within S
  | _ => True

namespace Run

/-- Whatever comes of the operation, it has only looked up classes in `S`. -/
def Advances (S : ObjectClass → Prop) (x : Run κ α) : Prop :=
  ∀ w : World κ, w.Advanced S (x w).2

/-! ## Putting operations together -/

theorem advances_pure (a : α) : Advances S (pure a : Run κ α) := fun w => .refl S w

theorem advances_throw (fault : Fault) : Advances S (throw fault : Run κ α) := fun w => .refl S w

theorem Advances.bind {x : Run κ α} {f : α → Run κ β} (hx : Advances S x)
    (hf : ∀ a, Advances S (f a)) : Advances S (x >>= f) := by
  intro w
  have hfirst := hx w
  rcases hrun : x w with ⟨fault | a, w₁⟩
  all_goals rw [hrun] at hfirst
  · rw [run_bind_of_error hrun]
    exact hfirst
  · rw [run_bind_of_ok hrun]
    exact hfirst.trans (hf a w₁)

theorem Advances.map {x : Run κ α} (hx : Advances S x) (f : α → β) : Advances S (f <$> x) := by
  rw [map_eq_pure_bind]
  exact hx.bind fun a => advances_pure (f a)

theorem advances_get {f : World κ → Run κ β} (hf : ∀ w, Advances S (f w)) :
    Advances S (get >>= f) := fun w => hf w w

theorem advances_ofExcept (x : Except Error α) : Advances S (ofExcept x : Run κ α) := by
  cases x with
  | ok a => exact advances_pure a
  | error cause => exact advances_throw _

theorem advances_ofFallible (x : Except Fault α) : Advances S (ofFallible x : Run κ α) := by
  cases x with
  | ok a => exact advances_pure a
  | error fault => exact advances_throw fault

theorem advances_modifyHeap (f : Heap κ → Heap κ) : Advances S (modifyHeap f : Run κ Unit) :=
  fun w => ⟨.refl S w.types, rfl⟩

/-- What is done after an operation does not matter if it only concerns the heap. -/
theorem Advances.andFinally {x : Run κ α} (hx : Advances S x) (f : World κ → Heap κ) :
    Advances S (andFinally x fun w => { w with heap := f w }) :=
  fun w => ⟨(hx w).types, (hx w).schemas⟩

theorem Advances.onFault {x : Run κ α} (hx : Advances S x) (f : World κ → Heap κ) :
    Advances S (onFault x fun w => { w with heap := f w }) := by
  intro w
  have hbody := hx w
  simp only [Run.onFault]
  rcases hrun : x w with ⟨fault | a, w₁⟩
  all_goals rw [hrun] at hbody
  · exact ⟨hbody.types, hbody.schemas⟩
  · exact hbody

theorem Advances.releasing {x : Run κ α} (hx : Advances S x) (ids : List ObjId) :
    Advances S (releasing ids x) := hx.andFinally _

theorem Advances.releasingOnFault {x : Run κ α} (hx : Advances S x) (ids : List ObjId) :
    Advances S (releasingOnFault ids x) := hx.onFault _

theorem Advances.attempt {x : Run κ α} (hx : Advances S x) : Advances S (attempt x) := by
  intro w
  have hbody := hx w
  simp only [Run.attempt]
  rcases hrun : x w with ⟨(cause | cause) | a, w₁⟩
  all_goals
    rw [hrun] at hbody
    exact hbody

theorem advances_forM {f : α → Run κ Unit} (hf : ∀ a, Advances S (f a)) :
    ∀ as : List α, Advances S (as.forM f)
  | [] => advances_pure ()
  | a :: as => (hf a).bind fun _ => advances_forM hf as

theorem advances_mapOwned {owned : β → List ObjId} {f : α → Run κ β} (hf : ∀ a, Advances S (f a)) :
    ∀ as : List α, Advances S (mapOwned owned f as)
  | [] => advances_pure []
  | a :: as => by
      refine (hf a).bind fun b => ?_
      exact ((advances_mapOwned hf as).releasingOnFault _).bind fun bs => advances_pure _

/-! ## Asking -/

theorem advances_touch {c : ObjectClass} (hc : S c) : Advances S (touch c : Run κ Nat) :=
  fun w => ⟨.touch hc w.types, rfl⟩

theorem advances_askClasses (id : ObjId) {cs : List ObjectClass} (hcs : ∀ c ∈ cs, S c) :
    Advances S (askClasses id cs : Run κ Unit) := by
  induction cs with
  | nil => exact advances_pure ()
  | cons c cs ih =>
      obtain ⟨hc, hcs⟩ := List.forall_mem_cons.mp hcs
      refine (advances_touch hc).bind fun _ => advances_get fun w => ?_
      split
      · exact ih hcs
      · exact advances_pure ()

theorem advances_askWhile {ask : α → Run κ Unit} (hask : ∀ a, Advances S (ask a))
    (passes : World κ → α → Bool) : ∀ as, Advances S (askWhile ask passes as)
  | [] => advances_pure ()
  | a :: as => by
      refine (hask a).bind fun _ => advances_get fun w => ?_
      split
      · exact advances_askWhile hask passes as
      · exact advances_pure ()

theorem advances_query (f : World κ → Except Error α) : Advances S (query f) :=
  advances_get fun w => advances_ofExcept (f w)

theorem advances_queryAsking {cs : List ObjectClass} (hcs : ∀ c ∈ cs, S c) (v : Value)
    (f : World κ → Except Error α) : Advances S (queryAsking cs v f) := by
  unfold queryAsking
  split
  · exact (advances_askClasses _ hcs).bind fun _ => advances_query f
  · exact advances_query f

/-! ## Making -/

theorem advances_create {c : ObjectClass} (hc : S c) (payload : Payload κ) :
    Advances S (create c payload) := by
  refine ((advances_touch hc).onFault _).bind fun index => ?_
  exact fun w => ⟨.refl S w.types, rfl⟩

theorem advances_createAccepted {cls : ObjectClass} (hcls : S cls) :
    ∀ {contents : List (ObjectClass × Payload κ)}, (∀ p ∈ contents, S p.1) →
      Advances S (createAccepted cls contents)
  | [], _ => advances_pure none
  | (boxed, payload) :: rest, hcontents => by
      obtain ⟨hboxed, hrest⟩ := List.forall_mem_cons.mp hcontents
      have haccepts : Advances S (accepts boxed cls : Run κ Bool) := by
        refine (advances_touch hboxed).bind fun _ => (advances_touch hcls).bind fun _ => ?_
        exact advances_get fun w => advances_pure _
      refine haccepts.bind fun accepted => ?_
      split
      · exact (advances_create hboxed payload).map _
      · exact advances_createAccepted hcls hrest

theorem advances_memberOf {cls : ObjectClass} (hcls : S cls) (id : ObjId) :
    Advances S (memberOf cls id : Run κ Ref) := by
  refine Advances.releasingOnFault ?_ [id]
  refine (advances_touch hcls).bind fun _ => advances_get fun w => ?_
  split
  · exact advances_pure _
  · exact advances_throw _

/-! ## Tensors -/

theorem advances_deref (r : Ref) : Advances S (Tensor.deref r : Run κ (ObjId × Tensor)) := by
  cases r with
  | none => exact advances_throw _
  | some id =>
      refine advances_get fun w => ?_
      split
      · exact advances_pure _
      · exact advances_throw _

theorem advances_writeMemory (id : ObjId) (start : Nat) (data : Bytes) :
    Advances S (Tensor.writeMemory id start data : Run κ Unit) := by
  refine advances_get fun w => ?_
  dsimp only
  split
  · exact advances_modifyHeap _
  · exact advances_pure ()

theorem advances_fill (id : ObjId) (t : Tensor) (data : Bytes) :
    Advances S (Tensor.fill id t data : Run κ Unit) := by
  refine (advances_ofFallible _).bind fun size => ?_
  split
  · exact (advances_throw _).bind fun _ => advances_writeMemory _ _ _
  · exact advances_writeMemory _ _ _

theorem advances_zeros (hS : S .tensor) (shape : List Int) (dtype : DataType) (device : Device) :
    Advances S (Tensor.zeros shape dtype device : Run κ ObjId) := by
  refine (advances_ofExcept _).bind fun _ => (advances_ofExcept _).bind fun _ =>
    (advances_ofFallible _).bind fun size => ?_
  dsimp only
  split
  · exact (advances_throw _).bind fun _ => advances_create hS _
  · exact advances_create hS _

theorem advances_restore (hS : S .tensor) (saved : Blob.TensorRecord) :
    Advances S (Blob.restore saved : Run κ ObjId) := by
  unfold Blob.restore
  split
  on_goal 1 => refine (advances_throw _).bind fun _ => ?_
  all_goals
    refine (advances_zeros hS _ _ _).bind fun id => ?_
    refine (Advances.releasingOnFault ?_ [id]).bind fun _ => advances_pure id
    refine (advances_deref _).bind fun p => ?_
    obtain ⟨_, t⟩ := p
    refine (advances_ofFallible _).bind fun size => ?_
    split
    · exact (advances_throw _).bind fun _ => advances_fill _ _ _
    · exact advances_fill _ _ _

/-- Reading a tensor makes one, and otherwise changes memory only. -/
theorem advances_loadTensor (hS : S .tensor) (blob : Bytes) :
    Advances S (Blob.loadTensor blob : Run κ ObjId) := by
  unfold Blob.loadTensor
  split
  · exact advances_restore hS _
  · exact advances_throw _

/-! ## Asking and converting -/

section Covered

variable (hS : ObjectClass.Covers S)
include hS

theorem covered_travelClasses : ∀ c ∈ travelClasses, S c := by
  have hsub : ∀ c ∈ travelClasses, c ∈ ObjectClass.builtins := by decide
  exact fun c hc => hS.builtins c (hsub c hc)

theorem covered_string : ∀ c ∈ [ObjectClass.string], S c :=
  List.forall_mem_singleton.mpr (hS.builtins .string (by decide))

theorem advances_askKey (r : Ref) : Advances S (askKey r : Run κ Unit) := by
  cases r with
  | none => exact advances_pure ()
  | some id => exact advances_askClasses id (covered_string hS)

theorem advances_travel (r : Ref) (moved : Bool) : Advances S (travel r moved : Run κ Value) := by
  cases r with
  | none => exact advances_get fun w => advances_pure _
  | some id =>
      refine (advances_askClasses id (covered_travelClasses hS)).bind fun _ => ?_
      exact advances_get fun w => advances_pure _

theorem advances_askType {t : RefType} (ht : t.Within S) (r : Ref) :
    Advances S (askType t r : Run κ Unit) := by
  induction t generalizing r with
  | named name cls =>
      cases r with
      | none => exact advances_pure ()
      | some id => exact advances_askClasses id (List.forall_mem_singleton.mpr ht)
  | array elem ih =>
      cases r with
      | none => exact advances_pure ()
      | some id =>
          have harray := List.forall_mem_singleton.mpr (hS.builtins .array (by decide))
          refine (advances_askClasses id harray).bind fun _ => advances_get fun w => ?_
          exact advances_askWhile (ih ht) _ _
  | map key value ihKey ihValue =>
      cases r with
      | none => exact advances_pure ()
      | some id =>
          have hmap := List.forall_mem_singleton.mpr (hS.builtins .map (by decide))
          refine (advances_askClasses id hmap).bind fun _ => advances_get fun w => ?_
          refine advances_askWhile (fun e : Ref × Ref => (ihKey ht.1 e.1).bind fun _ => ?_) _ _
          refine advances_get fun w => ?_
          split
          · exact ihValue ht.2 e.2
          · exact advances_pure ()

theorem advances_useReflection : Advances S (useReflection : Run κ Unit) := by
  have hboxes : ∀ s ∈ Schema.builtins, S s.cls := by
    have hsub : ∀ s ∈ Schema.builtins, s.cls ∈ ObjectClass.builtins := by decide
    exact fun s hs => hS.builtins s.cls (hsub s hs)
  have hall : ∀ schemas : List Schema, (∀ s ∈ schemas, S s.cls) →
      Advances S (schemas.forM fun s => do let _ ← touch (κ := κ) s.cls) := by
    intro schemas hschemas
    induction schemas with
    | nil => exact advances_pure ()
    | cons s schemas ih =>
        obtain ⟨hs, hrest⟩ := List.forall_mem_cons.mp hschemas
        exact ((advances_touch hs).bind fun _ => advances_pure ()).bind fun _ => ih hrest
  exact hall _ hboxes

theorem covered_boxings (v : Value) :
    ∀ p ∈ (World.boxings v : List (ObjectClass × Payload κ)), S p.1 := by
  have hmem : ∀ p ∈ (World.boxings v : List (ObjectClass × Payload κ)),
      p.1 ∈ ObjectClass.builtins := by
    cases v with
    | null | bytes | dataType | device | handle | tensorHandle | object =>
        exact fun _ hp => nomatch hp
    | int | float | bool | text =>
        simp [World.boxings, ObjectClass.builtins]
  exact fun p hp => hS.builtins p.1 (hmem p hp)

theorem advances_objectOf {cls : ObjectClass} (hcls : S cls) (v : Value) :
    Advances S (objectOf cls v : Run κ Ref) := by
  cases v with
  | null => exact advances_pure none
  | object tag id =>
      exact (advances_modifyHeap _).bind fun _ => advances_memberOf hcls id
  | int | float | bool | text | bytes | dataType | device | handle | tensorHandle =>
      refine (advances_createAccepted hcls (covered_boxings hS _)).bind fun found => ?_
      cases found with
      | some id => exact advances_memberOf hcls id
      | none => exact advances_get fun w => advances_throw _

theorem advances_collectEntries (pairs : List (Ref × Ref)) :
    Advances S (collectEntries pairs : Run κ (List (Ref × Ref))) := by
  refine ((advances_forM (fun e => advances_askKey hS e.1) pairs).releasingOnFault _).bind
    fun _ => advances_get fun w => ?_
  exact (advances_modifyHeap _).bind fun _ => advances_pure _

theorem advances_decodeContainer {t : RefType} (ht : t.Within S) (v : Value)
    {rebuild : ObjId → Run κ ObjId} (hrebuild : ∀ id, Advances S (rebuild id)) :
    Advances S (decodeContainer t v rebuild) := by
  refine (advances_objectOf hS hS.root v).bind fun r => ?_
  cases r with
  | none => exact advances_pure none
  | some id =>
      refine ((advances_touch (ht.cls hS)).releasingOnFault [id]).bind fun _ =>
        advances_get fun w => ?_
      split
      · exact (advances_modifyHeap _).bind fun _ => advances_throw _
      · refine ((advances_askType hS ht (some id)).releasingOnFault [id]).bind fun _ =>
          advances_get fun w => ?_
        split
        · exact advances_pure _
        · refine ((hrebuild id).attempt.releasing [id]).bind fun answer => ?_
          cases answer with
          | ok fresh => exact advances_pure _
          | error cause => exact advances_throw _

theorem advances_decodeRef {t : RefType} (ht : t.Within S) (v : Value) :
    Advances S (decodeRef t v : Run κ Ref) := by
  induction t generalizing v with
  | named name cls => exact advances_objectOf hS ht v
  | array elem ih =>
      refine advances_decodeContainer hS ht v fun id => advances_get fun w => ?_
      refine (advances_mapOwned (fun r => ?_) _).bind fun elems => ?_
      · exact (advances_travel hS r false).bind fun v => ih ht v
      · exact advances_create (hS.builtins .array (by decide)) _
  | map key value ihKey ihValue =>
      refine advances_decodeContainer hS ht v fun id => advances_get fun w => ?_
      refine (advances_mapOwned (fun e => ?_) _).bind fun pairs => ?_
      · refine (advances_travel hS e.1 false).bind fun k => (ihKey ht.1 k).bind fun k => ?_
        refine (Advances.releasingOnFault ?_ _).bind fun v => advances_pure _
        exact (advances_travel hS e.2 false).bind fun v => ihValue ht.2 v
      · refine (advances_collectEntries hS pairs).bind fun entries => ?_
        exact advances_create (hS.builtins .map (by decide)) _

/-- A conversion only looks up classes that its type names, and built-in ones. -/
theorem advances_decode {t : ValueType} (ht : t.Within S) (v : Value) :
    Advances S (decode t v : Run κ t.Carrier) := by
  have htravel := covered_travelClasses hS
  induction t with
  | int | f64 | bool => exact advances_queryAsking htravel _ _
  | f32 => exact (advances_queryAsking htravel _ _).bind fun _ => advances_pure _
  | text | dataType => exact advances_queryAsking (covered_string hS) _ _
  | bytes | device | rawDevice | handle | tensorHandle => exact advances_query _
  | unit => exact advances_pure ()
  | any =>
      refine Advances.bind ?_ fun _ => advances_pure _
      cases hv : v.object? with
      | none =>
          rw [retainValue, hv]
          exact advances_pure ()
      | some id =>
          rw [retainValue, hv]
          exact advances_modifyHeap (·.retain id)
  | ref r => exact advances_decodeRef hS ht v
  | option t ih =>
      rw [decode]
      split
      · exact advances_pure none
      · exact (ih ht).map some
  | variant a b iha ihb =>
      refine advances_get fun w => (iha ht.1).attempt.bind fun first => ?_
      cases first with
      | ok x => exact advances_pure _
      | error cause =>
          refine (ihb ht.2).attempt.bind fun second => ?_
          cases second with
          | ok x => exact advances_pure _
          | error cause => exact advances_throw _

end Covered

end Run

end ObjectRuntime
