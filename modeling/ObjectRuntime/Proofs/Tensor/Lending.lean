import ObjectRuntime.Proofs.Container.Completion
import ObjectRuntime.Proofs.Object.Hooks
import ObjectRuntime.Proofs.Tensor.Chains
import ObjectRuntime.Proofs.Tensor.Copying
set_option autoImplicit false

/-!
# Lent resources

Memory of foreign producers and callbacks come with hooks that are to run when they are no longer
needed.  A program makes tensors, imports and exports them in chains of any length, gives exports
back, makes functions of callbacks, shares handles, drops them and writes (`Lending.Steps`).
Whatever the order, a hook has not run while something leads to the object that stands for its
resource, and has run once as soon as nothing does (`Lending.settled_of_steps`).
-/

namespace ObjectRuntime

open Relation (EqvGen ReflTransGen)

variable {κ : Type}

namespace ManagedTensor

variable {w w' : World κ} {m : ManagedTensor} {id : ObjId} {s t : Tensor} {versioned : Bool}

/-- The tensor object that lends the memory. -/
def exporter? (m : ManagedTensor) : Option ObjId :=
  match m.lender with
  | .exporter id => some id
  | .foreign .. => none

/-- What is told to a foreign producer. -/
def hooks (m : ManagedTensor) : List Hook :=
  match m.lender with
  | .exporter _ => []
  | .foreign _ _ deleter => deleter.toList

/-- The memory comes from a foreign producer and reaches to the end of the elements. -/
structure Foreign (m : ManagedTensor) : Prop where
  lender : m.exporter? = none
  reaches : ∀ {size}, m.header.size = .ok size → m.byteOffset + size ≤ m.header.ownBytes.length

/-- The memory of a tensor object as it is lent. -/
def lending (id : ObjId) (t : Tensor) (versioned : Bool) : ManagedTensor where
  version := if versioned then some currentVersion else none
  shape := t.shape
  strides := none
  dtype := t.dtype
  device := ⟨DeviceKind.cpu.code, t.unit⟩
  byteOffset := t.byteOffset
  lender := .exporter id

theorem exportTensor_eq (id : ObjId) (t : Tensor) (versioned : Bool) (w : World κ) :
    exportTensor id t versioned w = (.ok (lending id t versioned), w.withHeap (w.heap.retain id)) :=
  rfl

theorem lending_congr (h : s.SameView t) (id : ObjId) (versioned : Bool) :
    lending id s versioned = lending id t versioned := by
  rw [lending, lending, h.shape, h.dtype, h.unit, h.byteOffset]

/-- An import looks at the memory as the tensor does that lends it. -/
theorem header_lending : (lending id t versioned).header.SameView t := ⟨rfl, rfl, rfl, rfl⟩

theorem source?_header : m.header.source? = m.exporter? := by
  obtain ⟨version, shape, strides, dtype, device, offset, lender⟩ := m
  cases lender <;> rfl

theorem hooks_header : (Payload.tensor m.header : Payload κ).hooks = m.hooks := by
  obtain ⟨version, shape, strides, dtype, device, offset, lender⟩ := m
  cases lender <;> rfl

/-- What is lent by a tensor object can always be imported. -/
theorem check_lending (hnonneg : ∀ n ∈ t.shape, 0 ≤ n) :
    (lending id t versioned).check = .ok () := by
  have hshape := Blob.checkShape_of_nonneg hnonneg
  cases versioned <;> simp [check, lending, hshape, Tensor.checkHost, Layout.isContiguous,
    misalignment, currentVersion, bind, Except.bind, pure, Except.pure]

/-- No extent of an import is negative. -/
theorem nonneg_of_check (hcheck : m.check = .ok ()) : ∀ n ∈ m.shape, 0 ≤ n := by
  refine Blob.nonneg_of_checkShape ?_
  cases hshape : Tensor.checkShape m.shape with
  | ok => rfl
  | error cause =>
      -- whatever is found before, the extents are looked at last
      simp only [check, hshape, bind, Except.bind, throw, throwThe, MonadExceptOf.throw] at hcheck
      repeat' split at hcheck
      all_goals cases hcheck

/-- A managed tensor is refused and stays, or its memory goes over to a new object. -/
theorem importTensor_cases (m : ManagedTensor) (w : World κ) :
    (∃ fault, m.check = .error fault ∧ m.importTensor w = (.error fault, w)) ∨
    (m.check = .ok () ∧ m.importTensor w = Run.create .tensor (.tensor m.header) w) := by
  rw [importTensor]
  cases hcheck : m.check with
  | error fault => exact .inl ⟨fault, rfl, run_bind_of_error rfl⟩
  | ok => exact .inr ⟨rfl, run_bind_of_ok (Blob.ofFallible_of_ok rfl)⟩

end ManagedTensor

/-- A call without a place for the result or without a callback fails, and nothing but the last error
changes; otherwise a function is made. -/
theorem Boundary.createFunction_cases (code : Option κ) (finalizer : Option Hook) (out : Bool)
    (w : World κ) :
    (∃ message, createFunction code finalizer out w =
      (.ok .failure, { w with lastError := message })) ∨
    ∃ program, ∀ {id : ObjId} {w' : World κ},
      Run.create .function (.function program finalizer) w = (.ok id, w') →
        createFunction code finalizer out w = (.ok (.success (some id)), w') := by
  cases out with
  | false => exact .inl (guarded_fails ⟨.error .nullPointer, rfl⟩)
  | true =>
  cases code with
  | none => exact .inl (guarded_fails ⟨.error (.nullHandle "TVMPackedCFunc"), rfl⟩)
  | some program =>
      refine .inr ⟨program, fun hcreate => guarded_of_ok ?_⟩
      exact run_bind_of_ok hcreate

namespace Lending

open ManagedTensor (lending)

variable {w w' : World κ} {m : ManagedTensor} {id : ObjId} {t : Tensor} {payload : Payload κ}
  {h : Heap κ} {fault : Fault}

/-! ## Programs -/

/-- What a program holds: a handle, or the memory of a tensor object that has been lent to it. -/
inductive Holding where
  | handle (id : ObjId)
  | lent (m : ManagedTensor)
  deriving DecidableEq, Repr

/-- The object to which there is a reference. -/
def Holding.object? : Holding → Option ObjId
  | .handle id => some id
  | .lent m => m.exporter?

/-- A program between two operations.  The list of hooks grows with each resource that is taken over;
it names the object that stands for the resource. -/
structure State (κ : Type) where
  world : World κ
  held : List Holding
  taken : List (Hook × ObjId)

/-- All references that are held. -/
def State.refs (s : State κ) : List ObjId := s.held.filterMap Holding.object?

/-- What a program does. -/
inductive Operation (κ : Type) where
  | zeros (shape : List Int) (dtype : DataType) (device : Device)
  | importForeign (m : ManagedTensor)
  | exportTensor (id : ObjId) (t : Tensor) (versioned : Bool)
  /-- Imports what has been exported. -/
  | importAgain (m : ManagedTensor)
  /-- Tells the exporter that its memory is no longer needed. -/
  | giveBack (m : ManagedTensor)
  | createFunction (code : Option κ) (finalizer : Option Hook) (out : Bool)
  | clone (id : ObjId)
  | drop (id : ObjId)
  | write (id : ObjId) (t : Tensor) (data : Bytes)

namespace Operation

/-- What the program gives up if the operation succeeds. -/
def takes : Operation κ → List Holding
  | .importAgain m | .giveBack m => [.lent m]
  | .drop id => [.handle id]
  | .zeros .. | .importForeign _ | .exportTensor .. | .createFunction .. | .clone _ | .write .. => []

/-- The hooks that come with a resource. -/
def hooks : Operation κ → List Hook
  | .importForeign m => m.hooks
  | .createFunction _ finalizer _ => finalizer.toList
  | _ => []

/-- What is exported or written to is a tensor, what is cloned is a handle, and foreign memory is
valid. -/
def Ready (w : World κ) (held : List Holding) : Operation κ → Prop
  | .importForeign m => m.Foreign
  | .exportTensor id t _ | .write id t _ => w.tensor? id = some t
  | .clone id => .handle id ∈ held
  | .zeros .. | .importAgain _ | .giveBack _ | .createFunction .. | .drop _ => True

/-- Does the operation and tells what the program gets. -/
def run : Operation κ → Run κ (List Holding)
  | .zeros shape dtype device => ([.handle ·]) <$> Tensor.zeros shape dtype device
  | .importForeign m | .importAgain m => ([.handle ·]) <$> m.importTensor
  | .exportTensor id t versioned => ([.lent ·]) <$> ManagedTensor.exportTensor id t versioned
  | .giveBack m => do
    m.giveBack
    return []
  | .createFunction code finalizer out => do
    match ← Boundary.createFunction code finalizer out with
    | .success r => return r.toList.map .handle
    | .failure => return []
  | .clone id => do
    Run.retain id
    return [.handle id]
  | .drop id => do
    Run.release id
    return []
  | .write id t data => do
    Tensor.fill id t data
    return []

end Operation

/-- The hooks that a program takes over with new objects. -/
def entrusted (hooks : List Hook) (gains : List Holding) : List (Hook × ObjId) :=
  (gains.filterMap Holding.object?).flatMap fun id => hooks.map (·, id)

/-- One operation.  A resource is taken over once. -/
inductive Step : State κ → State κ → Prop where
  | done (op : Operation κ) (rest : List Holding) {w w' : World κ} {held gains : List Holding}
      {taken : List (Hook × ObjId)}
      (takes : List.Perm held (op.takes ++ rest)) (ready : op.Ready w held)
      (run : op.run w = (.ok gains, w'))
      (fresh : gains ≠ [] → ∀ hook ∈ op.hooks, hook ∉ taken.map Prod.fst) :
      Step ⟨w, held, taken⟩ ⟨w', gains ++ rest, entrusted op.hooks gains ++ taken⟩
  | failed (op : Operation κ) (rest : List Holding) {w w' : World κ} {held : List Holding}
      {taken : List (Hook × ObjId)} {fault : Fault}
      (takes : List.Perm held (op.takes ++ rest)) (ready : op.Ready w held)
      (run : op.run w = (.error fault, w')) : Step ⟨w, held, taken⟩ ⟨w', held, taken⟩

/-- Any number of operations. -/
abbrev Steps : State κ → State κ → Prop := ReflTransGen Step

/-! ## What is always so -/

/-- The classes of the objects that are made. -/
def classes : List ObjectClass := [.tensor, .function]

/-- The account of a program. -/
structure Sound (s : State κ) : Prop where
  serves : s.world.types.Serves classes
  owned : s.world.heap.Owned s.refs
  entrusts : s.world.heap.Entrusts s.taken
  chained : s.world.Chained
  lends : ∀ {m}, .lent m ∈ s.held → ∃ id t versioned, s.world.tensor? id = some t ∧
    m = lending id t versioned

theorem rightful_classes : ∀ c ∈ classes, c.Rightful := by
  intro c hc
  refine ObjectClass.rightful_of_mem_builtins ?_
  simp only [classes, List.mem_cons, List.not_mem_nil, or_false] at hc
  rcases hc with rfl | rfl <;> decide

namespace Sound

variable {s : State κ} {held keep : List Holding} {c : ObjectClass}

/-- The order of what is held and other last errors do not matter. -/
theorem congr (hs : Sound s) (hheap : w'.heap = s.world.heap) (htypes : w'.types = s.world.types)
    (hheld : List.Perm held s.held) : Sound ⟨w', held, s.taken⟩ where
  serves := htypes ▸ hs.serves
  owned := hheap ▸ hs.owned.perm (hheld.filterMap _)
  entrusts := hheap ▸ hs.entrusts
  chained := hs.chained.of_heap hheap
  lends hm := by simpa only [World.tensor?_of_heap hheap] using hs.lends (hheld.mem_iff.mp hm)

/-- Objects of the classes can be made. -/
theorem exists_create (hs : Sound s) (hc : c ∈ classes) :
    ∃ (first : Nat) (w₁ : World κ), w₁.heap = s.world.heap ∧ w₁.types.Serves classes ∧ ∀ payload,
      Run.create c payload s.world = (.ok ⟨s.world.heap.cells.size⟩,
        w₁.withHeap (s.world.heap.alloc first payload).1) := by
  obtain ⟨first, w₁, htouch, hserves⟩ := Run.touch_of_serves rightful_classes hs.serves (.inr hc)
  have hheap : w₁.heap = s.world.heap := by
    have hquiet := (Run.quiet_touch c s.world).1
    rwa [htouch] at hquiet
  refine ⟨first, w₁, hheap, hserves, fun payload => ?_⟩
  rw [Run.create_of_touch htouch, hheap]
  rfl

/-- A new object is made from what the program gives, and stands for the hooks in its content. -/
theorem made (hs : Sound s) (hc : c ∈ classes)
    (hgives : List.Perm s.refs (payload.references ++ keep.filterMap Holding.object?))
    (hkeep : ∀ {m}, .lent m ∈ keep → .lent m ∈ s.held)
    (hfits : ∀ t, payload = .tensor t → s.world.Fits ⟨s.world.heap.cells.size⟩ t) :
    ∃ id w', Run.create c payload s.world = (.ok id, w') ∧
      ((∀ hook ∈ payload.hooks, hook ∉ s.taken.map Prod.fst) →
        Sound ⟨w', [.handle id] ++ keep, entrusted payload.hooks [.handle id] ++ s.taken⟩) := by
  obtain ⟨first, w₁, hheap, hserves, hcreate⟩ := hs.exists_create hc
  have howned : s.world.heap.Owned (payload.references ++ keep.filterMap Holding.object?) :=
    hs.owned.perm hgives.symm
  have htaken : entrusted payload.hooks [.handle ⟨s.world.heap.cells.size⟩] =
      payload.hooks.map (·, ⟨s.world.heap.cells.size⟩) := List.append_nil _
  refine ⟨_, _, hcreate payload, fun hfresh => ⟨hserves, howned.alloc, ?_, ?_, fun {m} hm => ?_⟩⟩
  · rw [htaken]
    exact hs.entrusts.alloc first hfresh
  · exact (hs.chained.alloc first hfits).of_heap rfl
  · rcases List.mem_cons.mp hm with heq | hm
    · cases heq
    · obtain ⟨id, t, versioned, ht, rfl⟩ := hs.lends (hkeep hm)
      refine ⟨id, t, versioned, ?_, rfl⟩
      exact World.tensor?_of_heap (w := s.world.withHeap (s.world.heap.alloc first payload).1) rfl id ▸
        World.tensor?_alloc first ht

/-- References are taken and given up, but no object is made. -/
theorem recounted (hs : Sound s) (hgrown : Heap.Grown h s.world.heap)
    (howned : h.Owned (held.filterMap Holding.object?)) (hentrusts : h.Entrusts s.taken)
    (hlends : ∀ {m}, .lent m ∈ held → ∃ id t versioned, s.world.tensor? id = some t ∧
      m = lending id t versioned) : Sound ⟨s.world.withHeap h, held, s.taken⟩ := by
  refine ⟨hs.serves, howned, hentrusts, hs.chained.shrunk hgrown howned, fun {m} hm => ?_⟩
  obtain ⟨id, t, versioned, ht, rfl⟩ := hlends hm
  have hmem : id ∈ held.filterMap Holding.object? :=
    List.mem_filterMap.mpr ⟨.lent (lending id t versioned), hm, rfl⟩
  obtain ⟨o, ho⟩ := howned.alive_of_mem hmem
  exact ⟨id, t, versioned, World.tensor?_of_shrunk hgrown ho ht, rfl⟩

end Sound

/-! ## One operation -/

/-- The operation fails and changes nothing, or it succeeds, and the account is in order again. -/
def Operation.Keeps (op : Operation κ) (s : State κ) (rest : List Holding) : Prop :=
  (∃ fault, op.run s.world = (.error fault, s.world)) ∨
  ∃ gains w', op.run s.world = (.ok gains, w') ∧
    ((gains ≠ [] → ∀ hook ∈ op.hooks, hook ∉ s.taken.map Prod.fst) →
      Sound ⟨w', gains ++ rest, entrusted op.hooks gains ++ s.taken⟩)

section

variable {s : State κ} {rest : List Holding} {op : Operation κ} {x : Run κ ObjId} {c : ObjectClass}

theorem Operation.Keeps.of_refused (hrun : op.run = ([.handle ·]) <$> x)
    (hx : x s.world = (.error fault, s.world)) : op.Keeps s rest := by
  refine .inl ⟨fault, ?_⟩
  rw [hrun, map_eq_pure_bind]
  exact run_bind_of_error hx

/-- A new object stands for the hooks that come with the operation. -/
theorem Operation.Keeps.of_made (hrun : op.run = ([.handle ·]) <$> x)
    (hx : x s.world = Run.create c payload s.world) (hhooks : op.hooks = payload.hooks)
    (hs : Sound s) (hc : c ∈ classes)
    (hgives : List.Perm s.refs (payload.references ++ rest.filterMap Holding.object?))
    (hkeep : ∀ {m}, .lent m ∈ rest → .lent m ∈ s.held)
    (hfits : ∀ t, payload = .tensor t → s.world.Fits ⟨s.world.heap.cells.size⟩ t) :
    op.Keeps s rest := by
  obtain ⟨id, w', hcreate, hsound⟩ := hs.made hc hgives hkeep hfits
  refine .inr ⟨[.handle id], w', ?_, fun hfresh => ?_⟩
  · rw [hrun]
    exact run_map_of_ok (hx.trans hcreate)
  · rw [hhooks] at hfresh ⊢
    exact hsound (hfresh (List.cons_ne_nil _ _))

variable (hs : Sound s)
include hs

theorem keeps_zeros (shape : List Int) (dtype : DataType) (device : Device)
    (hheld : List.Perm s.held rest) : (Operation.zeros shape dtype device).Keeps s rest := by
  rcases Tensor.zeros_cases shape dtype device s.world with ⟨fault, hrefused⟩ |
      ⟨data, hnonneg, hsize, hzeros⟩
  · exact .of_refused rfl hrefused
  · refine .of_made rfl hzeros rfl hs List.mem_cons_self (hheld.filterMap _)
      hheld.mem_iff.mpr fun t ht => ?_
    cases ht
    refine ⟨hnonneg, (nomatch ·), fun {size} _ hsize' => ?_⟩
    obtain rfl := Except.ok.inj (hsize.symm.trans hsize')
    exact (Nat.zero_add _).le

theorem keeps_importForeign (hforeign : m.Foreign) (hheld : List.Perm s.held rest) :
    (Operation.importForeign m).Keeps s rest := by
  rcases m.importTensor_cases s.world with ⟨fault, -, hrefused⟩ | ⟨hcheck, himport⟩
  · exact .of_refused rfl hrefused
  · have hsource : m.header.source? = none := ManagedTensor.source?_header.trans hforeign.lender
    refine .of_made rfl himport ManagedTensor.hooks_header.symm hs List.mem_cons_self ?_
      hheld.mem_iff.mpr fun t ht => ?_
    · rw [Tensor.references_tensor, hsource]
      exact hheld.filterMap _
    · cases ht
      refine ⟨ManagedTensor.nonneg_of_check hcheck, fun hy => ?_, fun _ => hforeign.reaches⟩
      rw [hsource] at hy
      cases hy

/-- An export is imported over the memory of the exporter, and its reference goes over to the import. -/
theorem keeps_importAgain (hheld : List.Perm s.held (.lent m :: rest)) :
    (Operation.importAgain m).Keeps s rest := by
  obtain ⟨id, t, versioned, ht, rfl⟩ := hs.lends (hheld.mem_iff.mpr List.mem_cons_self)
  have hcheck : (lending id t versioned).check = .ok () :=
    ManagedTensor.check_lending (hs.chained.fits ht).nonneg
  rcases (lending id t versioned).importTensor_cases s.world with ⟨fault, hfails, -⟩ | ⟨-, himport⟩
  · rw [hcheck] at hfails
    cases hfails
  · refine .of_made rfl himport rfl hs List.mem_cons_self (hheld.filterMap _)
      (fun hm => hheld.mem_iff.mpr (List.mem_cons_of_mem _ hm)) fun t' ht' => ?_
    cases ht'
    obtain ⟨o, ho, -⟩ := World.tensor?_eq_some.mp ht
    refine ⟨(hs.chained.fits ht).nonneg, fun hy => ?_, fun hown => nomatch hown⟩
    cases hy
    exact ⟨Heap.lt_size_of_get? ho, t, ht, (ManagedTensor.header_lending).symm⟩

/-- A further reference is taken. -/
theorem sound_retain {holding : Holding} {o : Object κ} (hid : holding.object? = some id)
    (ho : s.world.heap.get? id = some o)
    (hlends : ∀ m, holding = .lent m → ∃ id t versioned, s.world.tensor? id = some t ∧
      m = lending id t versioned) (hheld : List.Perm s.held rest) :
    Sound ⟨s.world.withHeap (s.world.heap.retain id), holding :: rest, s.taken⟩ := by
  refine hs.recounted (Heap.grown_of_retain ho) ((hs.owned.retain ho).perm ?_)
    (hs.entrusts.retain id) fun {m} hm => ?_
  · rw [List.filterMap_cons_some hid]
    exact (hheld.symm.filterMap _).cons id
  · rcases List.mem_cons.mp hm with heq | hm
    · exact hlends m heq.symm
    · exact hs.lends (hheld.mem_iff.mpr hm)

theorem keeps_exportTensor {versioned : Bool} (ht : s.world.tensor? id = some t)
    (hheld : List.Perm s.held rest) : (Operation.exportTensor id t versioned).Keeps s rest := by
  obtain ⟨o, ho, -⟩ := World.tensor?_eq_some.mp ht
  have hexport := ManagedTensor.exportTensor_eq id t versioned s.world
  refine .inr ⟨[.lent (lending id t versioned)], _, run_map_of_ok hexport, fun _ => ?_⟩
  refine sound_retain hs rfl ho (fun m heq => ?_) hheld
  cases heq
  exact ⟨id, t, versioned, ht, rfl⟩

theorem keeps_clone (hid : .handle id ∈ s.held) (hheld : List.Perm s.held rest) :
    (Operation.clone id).Keeps s rest := by
  have hmem : id ∈ s.refs := List.mem_filterMap.mpr ⟨.handle id, hid, rfl⟩
  obtain ⟨o, ho⟩ := hs.owned.alive_of_mem hmem
  exact .inr ⟨[.handle id], _, rfl, fun _ => sound_retain hs rfl ho (fun _ heq => nomatch heq) hheld⟩

/-- A handle or an export is given up. -/
theorem sound_release {holding : Holding} (hid : holding.object? = some id)
    (hheld : List.Perm s.held (holding :: rest)) :
    Sound ⟨s.world.withHeap (s.world.heap.release id), rest, s.taken⟩ := by
  have howned : s.world.heap.Owned (id :: rest.filterMap Holding.object?) := by
    refine hs.owned.perm ((List.Perm.of_eq ?_).trans (hheld.symm.filterMap _))
    rw [List.filterMap_cons_some hid]
  exact hs.recounted (Heap.grown_of_release _ _) howned.release (hs.entrusts.release id)
    fun hm => hs.lends (hheld.mem_iff.mpr (List.mem_cons_of_mem _ hm))

theorem keeps_giveBack (hheld : List.Perm s.held (.lent m :: rest)) :
    (Operation.giveBack m).Keeps s rest := by
  obtain ⟨id, t, versioned, -, rfl⟩ := hs.lends (hheld.mem_iff.mpr List.mem_cons_self)
  exact .inr ⟨[], _, rfl, fun _ => sound_release hs rfl hheld⟩

theorem keeps_drop (hheld : List.Perm s.held (.handle id :: rest)) :
    (Operation.drop id).Keeps s rest :=
  .inr ⟨[], _, rfl, fun _ => sound_release hs rfl hheld⟩

/-- A function of a callback is made, or the call fails before anything has happened. -/
theorem keeps_createFunction (code : Option κ) (finalizer : Option Hook) (out : Bool)
    (hheld : List.Perm s.held rest) :
    (Operation.createFunction code finalizer out).Keeps s rest := by
  rcases Boundary.createFunction_cases code finalizer out s.world with ⟨message, hfailed⟩ |
      ⟨program, hmake⟩
  · refine .inr ⟨[], _, run_bind_of_ok hfailed, fun _ => ?_⟩
    exact hs.congr rfl rfl hheld.symm
  · have hgives : List.Perm s.refs ((Payload.function program finalizer).references ++
        rest.filterMap Holding.object?) := hheld.filterMap _
    obtain ⟨id, w', hcreate, hsound⟩ := hs.made (List.mem_cons_of_mem _ List.mem_cons_self) hgives
      hheld.mem_iff.mpr fun t ht => nomatch ht
    refine .inr ⟨[.handle id], w', run_bind_of_ok (hmake hcreate), fun hfresh => ?_⟩
    exact hsound (hfresh (List.cons_ne_nil _ _))

/-- Bytes are written where the memory is kept, which changes no header. -/
theorem keeps_write {data : Bytes} (ht : s.world.tensor? id = some t)
    (hheld : List.Perm s.held rest) : (Operation.write id t data).Keeps s rest := by
  rcases hs.chained.fill_cases ht data with ⟨fault, hrefused⟩ | ⟨hsize, hwritten⟩
  · exact .inl ⟨fault, run_bind_of_error hrefused⟩
  · refine .inr ⟨[], _, run_bind_of_ok hwritten, fun _ => ?_⟩
    have hchained := hs.chained.withMemory ht (hs.chained.length_overwrite ht hsize)
    obtain ⟨home, hhome, hown, -⟩ := hs.chained.exists_home ht
    obtain ⟨o, ho, hpayload⟩ := World.tensor?_eq_some.mp hhome
    rw [World.withMemory_of_home hhome] at hchained ⊢
    refine ⟨hs.serves, ?_, ?_, hchained, fun {m} hm => ?_⟩
    · refine (hs.owned.perm (hheld.symm.filterMap _)).rewrite ho ?_
      rw [hpayload, Tensor.references_tensor, Tensor.references_tensor, Tensor.withBytes_source?]
    · refine hs.entrusts.setPayload ho ?_
      rw [hpayload, Tensor.hooks_withBytes]
    · obtain ⟨x, u, versioned, hu, rfl⟩ := hs.lends (hheld.mem_iff.mpr hm)
      obtain ⟨u', hu', hview⟩ := World.exists_tensor?_withMemory id
        (Bytes.overwrite (s.world.memoryBytes id) t.byteOffset data) hu
      rw [World.withMemory_of_home hhome] at hu'
      exact ⟨x, u', versioned, hu', (ManagedTensor.lending_congr hview _ _).symm⟩

/-- Every operation fails and changes nothing, or leaves the account in order. -/
theorem Operation.keeps (op : Operation κ) (hready : op.Ready s.world s.held)
    (hheld : List.Perm s.held (op.takes ++ rest)) : op.Keeps s rest := by
  cases op with
  | zeros shape dtype device => exact keeps_zeros hs shape dtype device hheld
  | importForeign m => exact keeps_importForeign hs hready hheld
  | exportTensor id t versioned => exact keeps_exportTensor hs hready hheld
  | importAgain m => exact keeps_importAgain hs hheld
  | giveBack m => exact keeps_giveBack hs hheld
  | createFunction code finalizer out => exact keeps_createFunction hs code finalizer out hheld
  | clone id => exact keeps_clone hs hready hheld
  | drop id => exact keeps_drop hs hheld
  | write id t data => exact keeps_write hs hready hheld

end

/-! ## Runs -/

variable {s s₀ s' : State κ}

theorem Step.sound (hstep : Step s s') (hs : Sound s) : Sound s' := by
  cases hstep with
  | done op rest takes ready run fresh =>
      rcases op.keeps hs ready takes with ⟨fault, hrefused⟩ | ⟨gains, w', hrun, hsound⟩
      · cases run.symm.trans hrefused
      · cases run.symm.trans hrun
        exact hsound fresh
  | failed op rest takes ready run =>
      rcases op.keeps hs ready takes with ⟨fault, hrefused⟩ | ⟨gains, w', hrun, -⟩
      · cases run.symm.trans hrefused
        exact hs
      · cases run.symm.trans hrun

theorem Steps.sound (hsteps : Steps s s') (hs : Sound s) : Sound s' := by
  induction hsteps with
  | refl => exact hs
  | tail _ hstep ih => exact hstep.sound ih

/-- There is no object, and tensors and functions can be made. -/
structure State.Starts (s : State κ) : Prop where
  serves : s.world.types.Serves classes
  heap : s.world.heap = .empty
  held : s.held = []
  taken : s.taken = []

theorem State.Starts.sound (hstart : s.Starts) : Sound s where
  serves := hstart.serves
  owned := by
    rw [State.refs, hstart.heap, hstart.held]
    exact .empty
  entrusts := by
    rw [hstart.heap, hstart.taken]
    exact .empty
  chained := by
    refine ⟨fun {id t} ht => ?_⟩
    obtain ⟨o, ho, -⟩ := World.tensor?_eq_some.mp ht
    rw [hstart.heap] at ho
    cases ho
  lends hm := by
    rw [hstart.held] at hm
    cases hm

/-- What can be said of lent resources between two operations. -/
structure Settled (s : State κ) : Prop where
  /-- While something that is held leads to the object of a resource, its hook has not run. -/
  waits : ∀ {hook id}, (hook, id) ∈ s.taken → s.world.heap.Reachable s.refs id →
    s.world.heap.hooksRun.count hook = 0
  /-- As soon as nothing leads there, it has run once. -/
  runs : ∀ {hook id}, (hook, id) ∈ s.taken → ¬ s.world.heap.Reachable s.refs id →
    s.world.heap.hooksRun.count hook = 1
  /-- A hook that has not been taken over has not run. -/
  others : ∀ {hook}, hook ∉ s.taken.map Prod.fst → s.world.heap.hooksRun.count hook = 0
  /-- An import that is refused changes nothing. -/
  refused : ∀ {m fault w'}, ManagedTensor.importTensor m s.world = (.error fault, w') → w' = s.world
  /-- A call that makes no function changes nothing but the last error. -/
  failed : ∀ {code finalizer out w'},
    Boundary.createFunction code finalizer out s.world = (.ok .failure, w') →
      w' = { s.world with lastError := w'.lastError }
  /-- An export can always be imported again, and shares the memory of the exporter. -/
  comesBack : ∀ {m}, .lent m ∈ s.held → ∃ id w', m.importTensor s.world = (.ok id, w') ∧
    (∃ source, m.exporter? = some source) ∧ w'.source? id = m.exporter?
  /-- Tensors along a chain show the same. -/
  shows : ∀ {x y t u}, s.world.tensor? x = some t → s.world.tensor? y = some u →
    EqvGen (fun x y => s.world.source? x = some y) x y →
      u.shape = t.shape ∧ u.dtype = t.dtype ∧ s.world.tensorBytes y u = s.world.tensorBytes x t
  /-- What is written through one of them is shown by all. -/
  written : ∀ {x y t u data w'}, s.world.tensor? x = some t →
    Tensor.fill x t data s.world = (.ok (), w') → w'.tensor? y = some u →
      EqvGen (fun x y => w'.source? x = some y) x y → w'.tensorBytes y u = .ok data

theorem Sound.refused (hs : Sound s) (hrun : m.importTensor s.world = (.error fault, w')) :
    w' = s.world := by
  rcases m.importTensor_cases s.world with ⟨fault', -, hrefused⟩ | ⟨-, himport⟩
  · cases hrun.symm.trans hrefused
    rfl
  · obtain ⟨first, w₁, -, -, hcreate⟩ := hs.exists_create (List.mem_cons_self : .tensor ∈ classes)
    cases hrun.symm.trans (himport.trans (hcreate _))

theorem Sound.failed (hs : Sound s) {code : Option κ} {finalizer : Option Hook} {out : Bool}
    (hrun : Boundary.createFunction code finalizer out s.world = (.ok .failure, w')) :
    w' = { s.world with lastError := w'.lastError } := by
  rcases Boundary.createFunction_cases code finalizer out s.world with ⟨message, hfailed⟩ |
      ⟨program, hmake⟩
  · cases hrun.symm.trans hfailed
    rfl
  · obtain ⟨first, w₁, -, -, hcreate⟩ := hs.exists_create
      (List.mem_cons_of_mem _ List.mem_cons_self : .function ∈ classes)
    cases hrun.symm.trans (hmake (hcreate _))

theorem Sound.comesBack (hs : Sound s) (hm : .lent m ∈ s.held) :
    ∃ id w', m.importTensor s.world = (.ok id, w') ∧ (∃ source, m.exporter? = some source) ∧
      w'.source? id = m.exporter? := by
  obtain ⟨id, t, versioned, ht, rfl⟩ := hs.lends hm
  have hcheck : (lending id t versioned).check = .ok () :=
    ManagedTensor.check_lending (hs.chained.fits ht).nonneg
  rcases (lending id t versioned).importTensor_cases s.world with ⟨fault, hfails, -⟩ | ⟨-, himport⟩
  · rw [hcheck] at hfails
    cases hfails
  · obtain ⟨first, w₁, -, -, hcreate⟩ := hs.exists_create (List.mem_cons_self : .tensor ∈ classes)
    refine ⟨_, _, himport.trans (hcreate _), ⟨id, rfl⟩, ?_⟩
    have hnew : (w₁.withHeap (s.world.heap.alloc first
        (.tensor (lending id t versioned).header)).1).tensor? ⟨s.world.heap.cells.size⟩ =
          some (lending id t versioned).header := Blob.tensor?_alloc _
    rw [World.source?, hnew, Option.bind_some, ManagedTensor.source?_header]

/-- Resources that have been lent are released once, when nothing leads to them any more, and what is
lent in turn comes back and shows the same everywhere. -/
theorem settled_of_steps (hstart : s₀.Starts) (hsteps : Steps s₀ s) : Settled s := by
  have hs := hsteps.sound hstart.sound
  exact ⟨hs.entrusts.waits hs.owned, hs.entrusts.runs hs.owned, hs.entrusts.others, hs.refused,
    hs.failed, hs.comesBack, hs.chained.shows_same, hs.chained.shows_written⟩

/-- The step of an operation that answers. -/
theorem Step.of_answer {held gains : List Holding} {taken : List (Hook × ObjId)} (op : Operation κ)
    (rest : List Holding) (takes : List.Perm held (op.takes ++ rest)) (ready : op.Ready w held)
    (fresh : gains ≠ [] → ∀ hook ∈ op.hooks, hook ∉ taken.map Prod.fst)
    (answer : (op.run w).1.toOption = some gains) :
    Step ⟨w, held, taken⟩ ⟨(op.run w).2, gains ++ rest, entrusted op.hooks gains ++ taken⟩ := by
  refine .done op rest takes ready (Prod.ext ?_ rfl) fresh
  cases h : (op.run w).1 with
  | ok value => simpa [h, Except.toOption] using answer
  | error e => simp [h, Except.toOption] at answer

/-- Two bytes of a foreign producer. -/
def borrowed : ManagedTensor :=
  ⟨none, [2], none, ⟨1, 8, 1⟩, Device.host.toRaw, 0, .foreign [5, 6] 0 (some (.deleter 1))⟩

theorem foreign_borrowed : borrowed.Foreign where
  lender := rfl
  reaches hsize := by
    cases hsize
    decide

/-- The bytes are imported, exported and imported again, a callback becomes a function, and the function
and the first tensor are dropped. -/
def secondLeft : State Unit where
  world := [Operation.importForeign borrowed, .exportTensor ⟨0⟩ borrowed.header true,
    .importAgain (lending ⟨0⟩ borrowed.header true),
    .createFunction (some ()) (some (.finalizer 2)) true, .drop ⟨2⟩, .drop ⟨0⟩].foldl
      (fun w op => (op.run w).2) .initial
  held := [.handle ⟨1⟩]
  taken := [(.finalizer 2, ⟨2⟩), (.deleter 1, ⟨0⟩)]

/-- The finalizer has run with the function.  The deleter has not run with the first tensor, since the
second one shares its memory; it runs when that is dropped too. -/
theorem secondLeft_settled : Steps ⟨.initial, [], []⟩ secondLeft ∧
    secondLeft.world.heap.hooksRun.count (.finalizer 2) = 1 ∧
    secondLeft.world.heap.hooksRun.count (.deleter 1) = 0 ∧
    ∃ s : State Unit, Step secondLeft s ∧ s.held = [] ∧ s.world.heap.hooksRun.count (.deleter 1) = 1 := by
  have hstart : (⟨.initial, [], []⟩ : State Unit).Starts :=
    ⟨TypeTable.Roomy.initial.serves.mono (by decide), rfl, rfl, rfl⟩
  have imported : Steps (⟨.initial, [], []⟩ : State Unit) ⟨_, [.handle ⟨0⟩] ++ [], _⟩ :=
    .tail .refl (.of_answer (.importForeign borrowed) [] .rfl foreign_borrowed
      (fun _ _ _ => List.not_mem_nil) (by decide +kernel))
  have exported : Steps (⟨.initial, [], []⟩ : State Unit)
      ⟨_, [.lent (lending ⟨0⟩ borrowed.header true)] ++ [.handle ⟨0⟩], _⟩ :=
    .tail imported (.of_answer (.exportTensor ⟨0⟩ borrowed.header true) [.handle ⟨0⟩] .rfl
      (show World.tensor? _ _ = _ by decide +kernel) (fun _ _ h => nomatch h) (by decide +kernel))
  have again : Steps (⟨.initial, [], []⟩ : State Unit)
      ⟨_, [.handle ⟨1⟩] ++ [.handle ⟨0⟩], _⟩ :=
    .tail exported (.of_answer (.importAgain (lending ⟨0⟩ borrowed.header true)) [.handle ⟨0⟩] .rfl
      trivial (fun _ _ h => nomatch h) (by decide +kernel))
  have function : Steps (⟨.initial, [], []⟩ : State Unit)
      ⟨_, [.handle ⟨2⟩] ++ [.handle ⟨1⟩, .handle ⟨0⟩], _⟩ :=
    .tail again (.of_answer (.createFunction (some ()) (some (.finalizer 2)) true)
      [.handle ⟨1⟩, .handle ⟨0⟩] .rfl trivial (by decide +kernel) (by decide +kernel))
  have called : Steps (⟨.initial, [], []⟩ : State Unit)
      ⟨_, [] ++ [.handle ⟨1⟩, .handle ⟨0⟩], _⟩ :=
    .tail function (.of_answer (.drop ⟨2⟩) _ .rfl trivial (fun _ _ h => nomatch h)
      (by decide +kernel))
  have first : Steps (⟨.initial, [], []⟩ : State Unit) ⟨_, [] ++ [.handle ⟨1⟩], _⟩ :=
    .tail called (.of_answer (.drop ⟨0⟩) [.handle ⟨1⟩] (.swap _ _ _) trivial
      (fun _ _ h => nomatch h) (by decide +kernel))
  have left : Steps ⟨.initial, [], []⟩ secondLeft := first
  have last : Step secondLeft ⟨((Operation.drop ⟨1⟩).run secondLeft.world).2, [], secondLeft.taken⟩ :=
    @Step.of_answer _ _ _ [] _ (.drop ⟨1⟩) [] .rfl trivial (fun _ _ h => nomatch h)
      (by decide +kernel)
  have hmem : (.deleter 1, ⟨0⟩) ∈ secondLeft.taken := by decide
  refine ⟨left, by decide +kernel, ?_, _, last, rfl, ?_⟩
  · refine (settled_of_steps hstart left).waits hmem ?_
    have hshared : secondLeft.world.tensor? ⟨1⟩ =
        some (lending ⟨0⟩ borrowed.header true).header := by decide +kernel
    obtain ⟨o, ho, hpayload⟩ := World.tensor?_eq_some.mp hshared
    refine (Heap.Reachable.of_mem List.mem_cons_self).step ho ?_
    rw [hpayload]
    exact List.mem_cons_self
  · refine (settled_of_steps hstart (left.tail last)).runs hmem ?_
    rintro ⟨x, hx, -⟩
    cases hx

end Lending

end ObjectRuntime
