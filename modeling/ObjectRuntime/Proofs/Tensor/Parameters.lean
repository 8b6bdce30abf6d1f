import ObjectRuntime.Proofs.Container.Known
import ObjectRuntime.Proofs.Reflection.Nodes
import ObjectRuntime.Proofs.Tensor.PrefixFree
import ObjectRuntime.Proofs.Text.Utf8
set_option autoImplicit false

/-!
# Parameters saved and loaded

A map from strings to tensors shows a list of named contents (`World.Shows`).  Its blob is read back
as a new map that shows the same list, in any world in which the classes of such maps can be had,
and nothing but the blob itself is: neither a proper beginning of it nor the blob with bytes behind.
-/

namespace ObjectRuntime

variable {κ : Type}

/-- The name of a tensor and what can be seen of the tensor. -/
structure Parameter where
  name : String
  dtype : DataType
  shape : List Int
  data : Bytes
  deriving DecidableEq, Repr

/-- The tensor as it is written. -/
def Parameter.record (p : Parameter) : Blob.TensorRecord := Blob.hostRecord p.dtype p.shape p.data

namespace World

/-- The key of an entry is a string and its value a tensor, which show the parameter. -/
def Shows (w : World κ) (e : Ref × Ref) (p : Parameter) : Prop :=
  ∃ k v, e = (some k, some v) ∧ w.text? k = some p.name ∧
    w.tensorContent? v = some (p.dtype, p.shape, .ok p.data)

/-- The classes can be had, one after the other. -/
def Provides (w : World κ) : List ObjectClass → Prop
  | [] => True
  | c :: cs => ∃ first w', Run.touch c w = (.ok first, w') ∧ w'.Provides cs

/-- A map from different names to tensors, and what it shows.  Its size and the sizes of the names
are numbers of bytes in memory. -/
structure IsParameters (w : World κ) (r : Ref) (ps : List Parameter) : Prop where
  shown : List.Forall₂ w.Shows (w.entries r) ps
  made : ∀ k v, (some k, some v) ∈ w.entries r →
    w.OfClass k .string ∧ w.OfClass v .tensor ∧ ∃ t, w.tensor? v = some t ∧ w.IsWhole v t
  distinct : (ps.map Parameter.name).Nodup
  count : ps.length < 256 ^ 8
  names : ∀ p ∈ ps, (Utf8.encode p.name).length < 256 ^ 8

end World

namespace Blob

variable {w : World κ} {h : Heap κ} {r : Ref} {p : Parameter} {ps : List Parameter}

/-! ## Reading what has been written -/

/-- The parts of the record fit the numbers that a blob has for them. -/
structure ParamRecord.Writable (p : ParamRecord) : Prop where
  nameCount : p.names.length < 256 ^ 8
  tensorCount : p.tensors.length < 256 ^ 8
  names : ∀ name ∈ p.names, (Utf8.encode name).length < 256 ^ 8
  tensors : ∀ t ∈ p.tensors, t.Writable

namespace Step

theorem reads_name {s : String} (h : (Utf8.encode s).length < 256 ^ 8) :
    Reads name (encodeData (Utf8.encode s)) s := by
  intro total rest
  rw [name, reads_data h total rest]
  simp only [Utf8.decode?_encode]

/-- Named tensors that can be written are read back. -/
theorem reads_params {p : ParamRecord} (h : p.Writable) : Reads params p.encode p := by
  have hzero : Reads (number 8) (Bytes.ofNat 8 0) 0 := reads_number_of_lt (by decide)
  have hnames : Reads (times name p.names.length)
      (p.names.flatMap fun name => encodeData (Utf8.encode name)) p.names :=
    reads_times fun name hname => reads_name (h.names name hname)
  have htensors : Reads (times tensor p.tensors.length)
      (p.tensors.flatMap TensorRecord.encode) p.tensors :=
    reads_times fun t ht => reads_tensor (h.tensors t ht)
  unfold params
  simp only [ParamRecord.encode, List.append_assoc]
  refine (reads_tag paramsTag).bind ?_
  refine hzero.bind ?_
  refine (reads_number_of_lt h.nameCount).bind ?_
  refine hnames.bind ?_
  refine (reads_number_of_lt h.tensorCount).bind ?_
  rw [← List.append_nil (p.tensors.flatMap TensorRecord.encode)]
  exact htensors.bind (.pure _)

/-- What is read from some bytes and nothing more is read from the whole of them. -/
theorem Reads.readAll {α : Type} {step : Step α} {bs : Bytes} {a : α} (h : Reads step bs a) :
    readAll step bs = .ok a := by
  have hread := h bs.length []
  rw [List.append_nil] at hread
  exact readAll_eq_ok.mpr hread

end Step

/-! ## Saving -/

/-- A tensor that may be written and made: its extents and its data fit each other and memory. -/
structure Storable (p : Parameter) : Prop where
  rank : IntKind.i32.Fits p.shape.length
  dims : ∀ n ∈ p.shape, 0 ≤ n ∧ IntKind.i64.Fits n
  size : (ownTensor p.dtype p.shape p.data).size = .ok p.data.length
  room : max p.data.length 1 ≤ IntKind.isize.max.toNat - (Tensor.alignment - 1)

theorem Storable.writable (h : Storable p) : p.record.Writable := by
  refine ⟨h.rank, fun n hn => (h.dims n hn).2, ?_⟩
  have hlt : IntKind.isize.max.toNat < 256 ^ 8 := by decide
  have hroom := h.room
  simp only [Parameter.record, hostRecord]
  omega

/-- A whole tensor can be stored. -/
theorem storable_of_isWhole {v : ObjId} {t : Tensor} (ht : w.tensor? v = some t)
    (hwhole : w.IsWhole v t)
    (hcontent : w.tensorContent? v = some (p.dtype, p.shape, .ok p.data)) : Storable p := by
  obtain ⟨data, hbytes, hsize, hroom⟩ := hwhole.memory
  obtain ⟨name, dtype, shape, data'⟩ := p
  simp only [World.tensorContent?, ht, Option.map_some, Option.some.injEq, Prod.mk.injEq,
    hbytes, Except.ok.injEq] at hcontent
  obtain ⟨rfl, rfl, rfl⟩ := hcontent
  exact ⟨hwhole.rank, hwhole.dims, hsize, hroom⟩

/-- An operation that succeeds on each element without changing the world. -/
theorem mapM_of_ok {α β : Type} {f : α → Run κ β} {as : List α} {bs : List β}
    (h : List.Forall₂ (fun a b => f a w = (.ok b, w)) as bs) : as.mapM f w = (.ok bs, w) := by
  induction h with
  | nil => rfl
  | cons hab _ ih =>
      rw [List.mapM_cons, run_bind_of_ok hab, run_bind_of_ok ih]
      rfl

/-- What a blob says of a tensor is what can be seen of it. -/
theorem recordOf_of_content {id : ObjId}
    (hcontent : w.tensorContent? id = some (p.dtype, p.shape, .ok p.data)) :
    ∃ t, w.tensor? id = some t ∧ recordOf w id t = .ok p.record := by
  obtain ⟨t, ht, hshown⟩ := Option.map_eq_some_iff.mp hcontent
  obtain ⟨hdtype, hshape, hbytes⟩ : t.dtype = p.dtype ∧ t.shape = p.shape ∧
      w.tensorBytes id t = .ok p.data := by simpa only [Prod.mk.injEq] using hshown
  refine ⟨t, ht, ?_⟩
  rw [recordOf, hbytes, hdtype, hshape]
  rfl

variable (hparams : w.IsParameters r ps)
include hparams

/-- The entries are what the types of the map say. -/
theorem iterate_of_isParameters :
    Dict.iterate w .string .tensor r = .ok (w.entries r) := by
  refine Dict.iterate_of_checked fun e he => ?_
  obtain ⟨p, -, k, v, rfl, -⟩ := exists_mem_of_forall₂ hparams.shown.flip he
  obtain ⟨hstring, htensor, -⟩ := hparams.made k v he
  simp only [RefType.string, RefType.tensor, World.mismatch?, World.isInstance_of_ofClass hstring,
    World.isInstance_of_ofClass htensor, if_true, and_self]

/-- The blob consists of what the map shows. -/
theorem saveParams_of_isParameters :
    saveParams r w =
      (.ok (ParamRecord.encode ⟨ps.map Parameter.name, ps.map Parameter.record⟩), w) := by
  have hnames : (w.entries r).mapM (fun e => derefText w e.1) = .ok (ps.map Parameter.name) := by
    refine mapM_eq_ok (List.forall₂_map_right_iff.mpr (hparams.shown.imp ?_))
    rintro e p ⟨k, v, rfl, htext, -⟩
    simp only [derefText, Option.bind_some, htext]
  rw [saveParams, run_get_bind, run_bind_of_ok (ofFallible_of_ok (iterate_of_isParameters hparams)),
    run_bind_of_ok (ofFallible_of_ok hnames)]
  refine (run_bind_of_ok (mapM_of_ok (List.forall₂_map_right_iff.mpr (hparams.shown.imp ?_)))).trans
    rfl
  rintro e p ⟨k, v, rfl, -, hcontent⟩
  obtain ⟨t, ht, hrecord⟩ := recordOf_of_content hcontent
  exact (run_bind_of_ok (deref_of_tensor? ht)).trans (ofFallible_of_ok hrecord)

theorem storable_of_isParameters : ∀ p ∈ ps, Storable p := by
  intro p hp
  obtain ⟨e, he, k, v, rfl, -, hcontent⟩ := exists_mem_of_forall₂ hparams.shown hp
  obtain ⟨-, -, t, ht, hwhole⟩ := hparams.made k v he
  exact storable_of_isWhole ht hwhole hcontent

theorem readAll_of_isParameters :
    Step.readAll Step.params
        (ParamRecord.encode ⟨ps.map Parameter.name, ps.map Parameter.record⟩) =
      .ok ⟨ps.map Parameter.name, ps.map Parameter.record⟩ := by
  refine (Step.reads_params ⟨?_, ?_, ?_, ?_⟩).readAll
  · rw [List.length_map]
    exact hparams.count
  · rw [List.length_map]
    exact hparams.count
  · exact List.forall_mem_map.mpr hparams.names
  · exact List.forall_mem_map.mpr fun p hp => (storable_of_isParameters hparams p hp).writable

omit hparams

/-! ## Loading -/

/-- The entry has been made of the parameter. -/
def Stored (h : Heap κ) (e : Ref × Ref) (p : Parameter) : Prop :=
  ∃ k x, e = (some k, some x) ∧ (h.get? k).map Object.payload = some (.text p.name) ∧
    (h.get? x).map Object.payload = some (.tensor (ownTensor p.dtype p.shape p.data))

/-- The map, which has one owner, has been made of the parameters. -/
def Filled (h : Heap κ) (m : ObjId) (ps : List Parameter) : Prop :=
  ∃ first entries, h.get? m = some ⟨first, 1, .map entries⟩ ∧ List.Forall₂ (Stored h) entries ps

/-- An entry stays while no object but the map changes. -/
theorem Stored.mono {h' : Heap κ} {m : ObjId} {o : Object κ} {entries e : _}
    (he : Stored h e p) (hm : h.get? m = some o) (hmap : o.payload = .map entries)
    (hkept : ∀ x, x ≠ m → ∀ o, h.get? x = some o → h'.get? x = some o) : Stored h' e p := by
  have hkeep : ∀ x content, (h.get? x).map Object.payload = some content →
      (∀ entries, content ≠ .map entries) → (h'.get? x).map Object.payload = some content := by
    intro x content hcontent hne
    obtain ⟨o', ho', rfl⟩ := Option.map_eq_some_iff.mp hcontent
    have hx : x ≠ m := by
      rintro rfl
      cases hm.symm.trans ho'
      exact hne _ hmap
    rw [hkept x hx o' ho']
    rfl
  obtain ⟨k, x, rfl, hk, hx⟩ := he
  exact ⟨k, x, rfl, hkeep k _ hk nofun, hkeep x _ hx nofun⟩

/-- A new key goes behind the entries of a map with one owner. -/
theorem insert_of_new {m : ObjId} {o : Object κ} {entries : List (Ref × Ref)} (key value : Ref)
    (hknows : w.Knows [.map, .string]) (hm : w.heap.get? m = some o) (hone : o.count = 1)
    (hmap : o.payload = .map entries) (hnew : ∀ e ∈ entries, w.sameKey e.1 key = false) :
    Dict.insert (some m) key value w = (.ok (some m),
      w.withHeap (w.heap.set m (some { o with payload := .map (entries ++ [(key, value)]) }))) := by
  obtain ⟨first, hfirst⟩ := hknows .map (by decide)
  obtain ⟨text, htext⟩ := hknows .string (by decide)
  have hcontent : w.payload? m = some (.map entries) := by simp [World.payload?, hm, hmap]
  have hask : Dict.askInsert key w = (.ok (), w) :=
    (run_bind_of_ok (Run.touch_of_classIndex? hfirst)).trans
      (Run.askKey_of_answered fun id _ => ⟨text, htext, .inr trivial⟩)
  have hmake : Dict.makeUnique (some m) w = (.ok m, w) := by
    rw [Dict.makeUnique_eq, Run.unique_of_one ((Heap.count_of_get? hm).trans hone)]
  have hnone : entries.find? (fun e => w.sameKey e.1 key) = none :=
    List.find?_eq_none.mpr fun e he => by simp [hnew e he]
  rw [Dict.insert_eq, run_bind_of_ok (Run.releasingOnFault_of_ok hask), run_bind_of_ok hmake]
  have hput : Dict.put m key value w = (.ok (),
      w.withHeap (w.heap.setPayload m (.map (entries ++ [(key, value)])))) := by
    rw [Dict.put, run_get_bind, Dict.entries_of_payload hcontent,
      Loading.insertEntry_of_distinct hnew, leftOver, hnone]
    rfl
  rw [run_bind_of_ok hput, Heap.setPayload, hm]
  rfl

/-- Looking a class up looks at no objects. -/
theorem touch_withHeap {c : ObjectClass} {first : Nat} {w' : World κ}
    (htouch : Run.touch c w = (.ok first, w')) (h : Heap κ) :
    Run.touch c (w.withHeap h) = (.ok first, w'.withHeap h) := by
  obtain ⟨hanswer, rfl⟩ := Prod.mk.inj htouch
  exact Prod.ext hanswer rfl

/-- A new object is made at the end of the heap once its class has been looked up. -/
theorem create_withHeap {c : ObjectClass} {first : Nat} {w' : World κ}
    (htouch : Run.touch c w = (.ok first, w')) (h : Heap κ) (payload : Payload κ) :
    Run.create c payload (w.withHeap h) =
      (.ok ⟨h.cells.size⟩, w'.withHeap (h.alloc first payload).1) :=
  Run.create_of_touch (touch_withHeap htouch h)

/-- A class that is looked up is known beside the others. -/
theorem knows_of_touch {c : ObjectClass} {cs : List ObjectClass} {first : Nat} {w' : World κ}
    (hknows : w.Knows cs) (htouch : Run.touch c w = (.ok first, w')) : w'.Knows (c :: cs) := by
  refine List.forall_mem_cons.mpr ⟨⟨first, Run.known_of_touch htouch⟩, fun c' hc' => ?_⟩
  obtain ⟨first', hfirst'⟩ := hknows c' hc'
  have hkept := (Run.quiet_touch c w).2 hfirst'
  rw [htouch] at hkept
  exact ⟨first', hkept⟩

/-- The key and the value of a parameter are made at the end of the heap. -/
theorem makes_entry {v v₁ v₂ : World κ} {s t : Nat} (hp : Storable p)
    (hstring : Run.touch .string v = (.ok s, v₁)) (htensor : Run.touch .tensor v₁ = (.ok t, v₂)) :
    ∃ h₁ h k x, Run.create .string (.text p.name) v = (.ok k, v₁.withHeap h₁) ∧
      restore p.record (v₁.withHeap h₁) = (.ok x, v₂.withHeap h) ∧
      (∀ y o, v.heap.get? y = some o → h.get? y = some o) ∧
      Stored h (some k, some x) p := by
  obtain ⟨h₁, hh₁⟩ : ∃ h₁, h₁ = (v.heap.alloc s (.text p.name)).1 := ⟨_, rfl⟩
  obtain ⟨h, hh⟩ : ∃ h, h = (h₁.alloc t (.tensor (ownTensor p.dtype p.shape p.data))).1 := ⟨_, rfl⟩
  have hkey : Run.create .string (.text p.name) v = (.ok ⟨v.heap.cells.size⟩, v₁.withHeap h₁) :=
    hh₁ ▸ create_withHeap hstring v.heap _
  have hzeros := (zeros_eq_create (fun n hn => (hp.dims n hn).1) hp.size hp.room _).trans
    (create_withHeap htensor h₁ _)
  have hsize : h₁.cells.size = v.heap.cells.size + 1 := by rw [hh₁, Heap.size_alloc]
  refine ⟨h₁, h, _, _, hkey, hh ▸ restore_of_zeros hp.size hzeros, fun y o hy => ?_, _, _, rfl, ?_, ?_⟩
  · have hlt := Heap.lt_size_of_get? hy
    rw [hh, Heap.get?_alloc, if_neg (by omega), hh₁, Heap.get?_alloc, if_neg (by omega)]
    exact hy
  · rw [hh, Heap.get?_alloc, if_neg (by simp [hsize]), hh₁, Heap.get?_alloc, if_pos rfl]
    rfl
  · rw [hh, Heap.get?_alloc, if_pos rfl]
    rfl

theorem Stored.text_key {e : Ref × Ref} (he : Stored h e p) (w : World κ) :
    e.1.bind (w.withHeap h).text? = some p.name := by
  obtain ⟨k, x, rfl, hk, -⟩ := he
  simp only [Option.bind_some, World.text?, World.payload?, World.withHeap_heap, hk]

/-- One parameter is added to the map. -/
theorem insertAll_cons_of_storable {v v₁ v₂ : World κ} {m : ObjId} {s t : Nat}
    (hp : Storable p) (hfilled : Filled v.heap m ps) (hnew : p.name ∉ ps.map Parameter.name)
    (hknows : v.Knows [.map]) (hstring : Run.touch .string v = (.ok s, v₁))
    (htensor : Run.touch .tensor v₁ = (.ok t, v₂)) :
    ∃ h, (∀ rest, insertAll (some m) ((p.name, p.record) :: rest) v =
        insertAll (some m) rest (v₂.withHeap h)) ∧ Filled h m (ps ++ [p]) := by
  obtain ⟨first, entries, hm, hentries⟩ := hfilled
  obtain ⟨h₁, h, k, x, hkey, hvalue, hold, hentry⟩ := makes_entry hp hstring htensor
  have hm' := hold m _ hm
  have hstored : List.Forall₂ (Stored h) entries ps :=
    hentries.imp fun e p' he => he.mono hm rfl fun y _ o ho => hold y o ho
  have hdistinct : ∀ e ∈ entries, (v₂.withHeap h).sameKey e.1 (some k) = false := by
    intro e he
    obtain ⟨p', hp', (hstored' : Stored h e p')⟩ := exists_mem_of_forall₂ hstored.flip he
    rw [World.sameKey, hstored'.text_key, hentry.text_key]
    exact beq_eq_false_iff_ne.mpr fun heq => hnew (heq ▸ List.mem_map_of_mem hp')
  have hknows₂ := knows_of_touch (knows_of_touch hknows hstring) htensor
  have hinsert := insert_of_new (w := v₂.withHeap h) (some k) (some x)
    (fun c hc => hknows₂ c (by simp at hc ⊢; tauto)) hm' rfl rfl hdistinct
  refine ⟨_, fun rest => run_bind_of_ok (Run.releasingOnFault_of_ok ((run_bind_of_ok hkey).trans
    ((run_bind_of_ok (Run.releasingOnFault_of_ok hvalue)).trans hinsert))), ?_⟩
  have hkept : ∀ y, y ≠ m → ∀ o, h.get? y = some o →
      (h.set m (some ⟨first, 1, .map (entries ++ [(some k, some x)])⟩)).get? y = some o :=
    fun y hy o ho => (Heap.get?_set_of_ne hy _).trans ho
  refine ⟨first, entries ++ [(some k, some x)], Heap.get?_set_self hm' _, ?_⟩
  exact List.rel_append (hstored.imp fun e p' he => he.mono hm' rfl hkept)
    (.cons (hentry.mono hm' rfl hkept) .nil)

/-- All parameters are added to the map. -/
theorem insertAll_of_storable {todo : List Parameter} {m : ObjId} {v : World κ}
    (hall : ∀ p ∈ todo, Storable p) (hfilled : Filled v.heap m ps)
    (hdistinct : ((ps ++ todo).map Parameter.name).Nodup) (hknows : v.Knows [.map])
    (hprovides : todo ≠ [] → v.Provides [.string, .tensor]) :
    ∃ v', insertAll (some m) (todo.map fun p => (p.name, p.record)) v = (.ok (some m), v') ∧
      Filled v'.heap m (ps ++ todo) := by
  induction todo generalizing v ps with
  | nil => exact ⟨v, rfl, (List.append_nil ps).symm ▸ hfilled⟩
  | cons p todo ih =>
      obtain ⟨hp, hall⟩ := List.forall_mem_cons.mp hall
      obtain ⟨s, v₁, hstring, t, v₂, htensor, -⟩ := hprovides (List.cons_ne_nil _ _)
      have hnew : p.name ∉ ps.map Parameter.name := by
        rw [List.map_append, List.nodup_append] at hdistinct
        intro hmem
        exact hdistinct.2.2 _ hmem _ (List.mem_cons_self ..) rfl
      obtain ⟨h, hstep, hfilled'⟩ :=
        insertAll_cons_of_storable hp hfilled hnew hknows hstring htensor
      have hknows₂ := knows_of_touch (knows_of_touch hknows hstring) htensor
      have hagain : (v₂.withHeap h).Provides [.string, .tensor] := by
        obtain ⟨s', hs'⟩ := hknows₂ .string (by decide)
        obtain ⟨t', ht'⟩ := hknows₂ .tensor (by decide)
        exact ⟨s', _, Run.touch_of_classIndex? hs', t', _, Run.touch_of_classIndex? ht', trivial⟩
      rw [List.append_cons] at hdistinct ⊢
      rw [List.map_cons, hstep]
      exact ih hall hfilled' hdistinct (fun c hc => hknows₂ c (by simp at hc ⊢; tauto))
        fun _ => hagain

/-- A tensor that owns its bytes shows them. -/
theorem tensorContent?_of_storable {x : ObjId} (hp : Storable p)
    (hx : w.payload? x = some (.tensor (ownTensor p.dtype p.shape p.data))) :
    w.tensorContent? x = some (p.dtype, p.shape, .ok p.data) := by
  have hbytes := World.tensorBytes_owned (t := ownTensor p.dtype p.shape p.data) hx hp.size
  have htensor : w.tensor? x = some (ownTensor p.dtype p.shape p.data) := by
    simp only [World.tensor?, hx]
  rw [World.tensorContent?, htensor, Option.map_some]
  exact congrArg (fun bytes => some (p.dtype, p.shape, bytes)) hbytes

/-- What has been made of parameters shows them. -/
theorem shows_of_filled {m : ObjId} (hall : ∀ p ∈ ps, Storable p) (hfilled : Filled w.heap m ps) :
    List.Forall₂ w.Shows (w.entries (some m)) ps := by
  obtain ⟨first, entries, hm, hentries⟩ := hfilled
  have hcontent : w.payload? m = some (.map entries) := by simp [World.payload?, hm]
  rw [Dict.entries_of_payload hcontent]
  refine forall₂_imp_mem hentries fun e p _ hp he => ?_
  obtain ⟨k, x, rfl, hk, hx⟩ := id he
  refine ⟨k, x, rfl, ?_, tensorContent?_of_storable (hall p hp) hx⟩
  simp only [World.text?, World.payload?, hk]

/-- The classes of the objects that a map of the parameters consists of. -/
def parameterClasses (ps : List Parameter) : List ObjectClass :=
  .map :: if ps.isEmpty then [] else [.string, .tensor]

/-- A blob of storable parameters with different names is loaded as a map that shows them. -/
theorem loadParams_of_storable {blob : Bytes} (hall : ∀ p ∈ ps, Storable p)
    (hdistinct : (ps.map Parameter.name).Nodup) (hprovides : w.Provides (parameterClasses ps))
    (hread : Step.readAll Step.params blob =
      .ok ⟨ps.map Parameter.name, ps.map Parameter.record⟩) :
    ∃ r w', loadParams blob w = (.ok r, w') ∧ List.Forall₂ w'.Shows (w'.entries r) ps := by
  obtain ⟨first, w₁, htouch, hprovides⟩ := hprovides
  have hzip : (ps.map Parameter.name).zip (ps.map Parameter.record) =
      ps.map fun p => (p.name, p.record) := List.zip_map'
  have hmake : Dict.ofList [] w = (.ok (some ⟨w₁.heap.cells.size⟩),
      w₁.withHeap (w₁.heap.alloc first (.map [])).1) :=
    run_bind_of_ok (Run.create_of_touch htouch)
  have hnew : Filled (w₁.heap.alloc first (.map [])).1 ⟨w₁.heap.cells.size⟩ [] :=
    ⟨first, [], by rw [Heap.get?_alloc, if_pos rfl], .nil⟩
  have hknown : w₁.Knows [.map] :=
    List.forall_mem_singleton.mpr ⟨first, Run.known_of_touch htouch⟩
  have hrest : ps ≠ [] → (w₁.withHeap (w₁.heap.alloc first (.map [])).1).Provides
      [.string, .tensor] := by
    intro hps
    rw [if_neg (by simpa using hps)] at hprovides
    obtain ⟨s, w₂, hstring, t, w₃, htensor, -⟩ := hprovides
    exact ⟨s, _, touch_withHeap hstring _, t, _, touch_withHeap htensor _, trivial⟩
  obtain ⟨w', hinsert, hfilled⟩ := insertAll_of_storable
    (v := w₁.withHeap (w₁.heap.alloc first (.map [])).1) hall hnew hdistinct hknown hrest
  rw [loadParams_of_read hread (by simp), run_bind_of_ok hmake, hzip]
  exact ⟨_, w', hinsert, shows_of_filled hall hfilled⟩

/-! ## Blobs -/

/-- Bytes that begin with the blob or that it begins with are reported in every world. -/
def PrefixFree {α : Type} (load : Bytes → Run κ α) (blob : Bytes) : Prop :=
  ∀ other, other ≠ blob → (other <+: blob ∨ blob <+: other) →
    ∀ v, ∃ defect, load other v = (.error (.error (.blobFormat defect)), v)

theorem prefixFree_of_readAll {α β : Type} {step : Step β} {load : Bytes → Run κ α} {blob : Bytes}
    {b : β} (hlocal : step.Local) (hread : step.readAll blob = .ok b)
    (hload : ∀ other defect, step.readAll other = .error defect →
      ∀ v, load other v = (.error (.error (.blobFormat defect)), v)) : PrefixFree load blob := by
  rintro other hne (⟨more, rfl⟩ | ⟨more, rfl⟩) v
  · have hmore : more ≠ [] := by
      rintro rfl
      exact hne (List.append_nil other).symm
    obtain ⟨defect, hdefect⟩ := hlocal.readAll_prefix hread hmore
    exact ⟨defect, hload other defect hdefect v⟩
  · have hmore : more ≠ [] := by
      rintro rfl
      exact hne (List.append_nil blob)
    obtain ⟨defect, hdefect⟩ := hlocal.readAll_append hread hmore
    exact ⟨defect, hload _ defect hdefect v⟩

/-- Classes that are known can be had. -/
theorem provides_of_knows {cs : List ObjectClass} (hknows : w.Knows cs) : w.Provides cs := by
  induction cs with
  | nil => trivial
  | cons c cs ih =>
      obtain ⟨⟨first, hfirst⟩, hknows⟩ := List.forall_mem_cons.mp hknows
      exact ⟨first, w, Run.touch_of_classIndex? hfirst, ih hknows⟩

/-- Where the map is, only the class of maps may be missing, if it refers to nothing. -/
theorem provides_of_isParameters (hparams : w.IsParameters r ps) (hmap : w.Provides [.map]) :
    w.Provides (parameterClasses ps) := by
  obtain ⟨first, w₁, htouch, -⟩ := hmap
  refine ⟨first, w₁, htouch, ?_⟩
  cases ps with
  | nil => trivial
  | cons p ps =>
      obtain ⟨e, he, k, x, rfl, -⟩ := exists_mem_of_forall₂ hparams.shown List.mem_cons_self
      obtain ⟨hstring, htensor, -⟩ := hparams.made k x he
      have hknows : w.Knows [.string, .tensor] := by
        refine List.forall_mem_cons.mpr ⟨⟨_, hstring⟩, List.forall_mem_singleton.mpr ⟨_, htensor⟩⟩
      exact provides_of_knows fun c hc =>
        knows_of_touch hknows htouch c (List.mem_cons_of_mem _ hc)

/-- A tensor is saved as its record. -/
theorem saveTensor_of_content {id : ObjId}
    (hcontent : w.tensorContent? id = some (p.dtype, p.shape, .ok p.data)) :
    saveTensor (some id) w = (.ok p.record.encode, w) := by
  obtain ⟨t, ht, hrecord⟩ := recordOf_of_content hcontent
  rw [saveTensor, run_bind_of_ok (deref_of_tensor? ht)]
  refine (run_get_bind _ _).trans ?_
  rw [run_bind_of_ok (ofFallible_of_ok hrecord)]
  rfl

/-- The record of a storable tensor is loaded as a tensor that shows the same. -/
theorem loadTensor_of_storable (hp : Storable p) (hprovides : w.Provides [.tensor]) :
    ∃ id w', loadTensor p.record.encode w = (.ok id, w') ∧
      w'.tensorContent? id = some (p.dtype, p.shape, .ok p.data) := by
  obtain ⟨first, w₁, htouch, -⟩ := hprovides
  have hzeros := (zeros_eq_create (fun n hn => (hp.dims n hn).1) hp.size hp.room w).trans
    (Run.create_of_touch htouch)
  have hload : loadTensor p.record.encode w = (.ok ⟨w₁.heap.cells.size⟩,
      w₁.withHeap (w₁.heap.alloc first (.tensor (ownTensor p.dtype p.shape p.data))).1) := by
    rw [loadTensor, Step.readAll_encode hp.writable]
    exact restore_of_zeros hp.size hzeros
  refine ⟨_, _, hload, tensorContent?_of_storable hp ?_⟩
  rw [World.payload?, World.withHeap_heap, Heap.get?_alloc, if_pos rfl]
  rfl

/-- Parameters are read back from their blob in every world in which the classes of their objects
can be had, and a blob neither begins another one nor does it begin with one.  In the world itself
only the class of maps may be missing, if there are no parameters.  The same goes for a tensor. -/
theorem roundTrip_prefixFree (w : World κ) :
    (∀ r ps, w.IsParameters r ps → ∃ blob, saveParams r w = (.ok blob, w) ∧
      (w.Provides [.map] → w.Provides (parameterClasses ps)) ∧
      (∀ v : World κ, v.Provides (parameterClasses ps) → ∃ r' v',
        loadParams blob v = (.ok r', v') ∧ List.Forall₂ v'.Shows (v'.entries r') ps) ∧
      PrefixFree (κ := κ) loadParams blob) ∧
    (∀ id t, w.OfClass id .tensor → w.tensor? id = some t → w.IsWhole id t →
      ∃ blob, saveTensor (some id) w = (.ok blob, w) ∧ w.Provides [.tensor] ∧
      (∀ v : World κ, v.Provides [.tensor] → ∃ id' v', loadTensor blob v = (.ok id', v') ∧
        v'.tensorContent? id' = w.tensorContent? id) ∧
      PrefixFree (κ := κ) loadTensor blob) := by
  constructor
  · intro r ps hparams
    have hread := readAll_of_isParameters hparams
    refine ⟨_, saveParams_of_isParameters hparams, provides_of_isParameters hparams,
      fun v hprovides => loadParams_of_storable (storable_of_isParameters hparams)
        hparams.distinct hprovides hread, ?_⟩
    exact prefixFree_of_readAll Step.local_params hread
      fun other defect hdefect v => loadParams_of_defect hdefect
  · intro id t hclass ht hwhole
    obtain ⟨data, hbytes, -⟩ := hwhole.memory
    obtain ⟨p, hcontent⟩ : ∃ p : Parameter,
        w.tensorContent? id = some (p.dtype, p.shape, .ok p.data) := by
      refine ⟨⟨"", t.dtype, t.shape, data⟩, ?_⟩
      rw [World.tensorContent?, ht, Option.map_some, hbytes]
    have hp := storable_of_isWhole ht hwhole hcontent
    have hread := Step.readAll_encode hp.writable
    refine ⟨_, saveTensor_of_content hcontent,
      provides_of_knows (List.forall_mem_singleton.mpr ⟨_, hclass⟩), fun v hprovides => ?_, ?_⟩
    · rw [hcontent]
      exact loadTensor_of_storable hp hprovides
    · refine prefixFree_of_readAll Step.local_tensor hread fun other defect hdefect v => ?_
      rw [loadTensor, hdefect]
      rfl

/-! ### A map of two tensors -/

/-- The tensors: a column of two numbers, and one without elements. -/
def layerParameters : List Parameter :=
  [⟨"weight", .float32, [2, 1], [0, 0, 128, 63, 0, 0, 0, 64]⟩, ⟨"bias", .int 64 1, [0], []⟩]

/-- The objects: the strings and the tensors, and the map that holds them. -/
def layerWorld : World Empty :=
  let types := [.map, .string, .tensor].foldl (fun t c => (t.touch c).2) .initial
  let index (c : ObjectClass) := (types.classIndex? c).getD 0
  let cells : List (Option (Object Empty)) := layerParameters.flatMap fun p =>
    [some ⟨index .string, 1, .text p.name⟩,
      some ⟨index .tensor, 1, .tensor (ownTensor p.dtype p.shape p.data)⟩]
  let map : Object Empty :=
    ⟨index .map, 1, .map [(some ⟨0⟩, some ⟨1⟩), (some ⟨2⟩, some ⟨3⟩)]⟩
  { (World.initial : World Empty) with types, heap := ⟨(cells ++ [some map]).toArray, []⟩ }

theorem layerWorld_isParameters : layerWorld.IsParameters (some ⟨4⟩) layerParameters where
  shown := .cons ⟨_, _, rfl, rfl, rfl⟩ (.cons ⟨_, _, rfl, rfl, rfl⟩ .nil)
  made k v h := by
    have hentries : layerWorld.entries (some ⟨4⟩) = [(some ⟨0⟩, some ⟨1⟩), (some ⟨2⟩, some ⟨3⟩)] := rfl
    rw [hentries] at h
    simp only [List.mem_cons, Prod.mk.injEq, Option.some.injEq, List.not_mem_nil, or_false] at h
    rcases h with ⟨rfl, rfl⟩ | ⟨rfl, rfl⟩
    all_goals exact ⟨rfl, rfl, _, rfl, ⟨by decide, by decide, _, rfl, rfl, by decide⟩⟩
  distinct := by decide
  count := by decide
  names := by decide +kernel

/-- The map is saved and loaded, and so is its first tensor by itself. -/
theorem layerWorld_roundTrip :
    (∃ blob, saveParams (some ⟨4⟩) layerWorld = (.ok blob, layerWorld) ∧
      (∃ r v, loadParams blob layerWorld = (.ok r, v) ∧
        List.Forall₂ v.Shows (v.entries r) layerParameters) ∧
      PrefixFree (κ := Empty) loadParams blob) ∧
    ∃ blob, saveTensor (some ⟨1⟩) layerWorld = (.ok blob, layerWorld) ∧
      (∃ id v, loadTensor blob layerWorld = (.ok id, v) ∧
        v.tensorContent? id = layerWorld.tensorContent? ⟨1⟩) ∧
      PrefixFree (κ := Empty) loadTensor blob := by
  constructor
  · obtain ⟨blob, hsave, hhere, hload, hprefix⟩ :=
      (roundTrip_prefixFree layerWorld).1 _ _ layerWorld_isParameters
    have hmap : layerWorld.Provides [.map] := ⟨_, _, rfl, trivial⟩
    exact ⟨blob, hsave, hload _ (hhere hmap), hprefix⟩
  · obtain ⟨hstring, hclass, t, ht, hwhole⟩ := layerWorld_isParameters.made ⟨0⟩ ⟨1⟩ List.mem_cons_self
    obtain ⟨blob, hsave, hhere, hload, hprefix⟩ :=
      (roundTrip_prefixFree layerWorld).2 ⟨1⟩ t hclass ht hwhole
    exact ⟨blob, hsave, hload _ hhere, hprefix⟩

end Blob

end ObjectRuntime
