import ObjectRuntime.Proofs.Object.Ownership
import ObjectRuntime.Proofs.Tensor.Sharing
set_option autoImplicit false

/-!
# Chains of tensors over one memory

An export that is imported again shares the memory of the exporter, which may itself share that of an
earlier tensor.  `World.Chained` says of all tensors that each looks at its memory as the one before
it in the chain does.  Then a chain ends at one home, and everything along it shows the same elements
(`World.Chained.shows_same`), before and after a write (`World.Chained.shows_written`).
-/

namespace ObjectRuntime

open Relation (EqvGen)

variable {κ : Type} {w w' : World κ} {h : Heap κ} {id x y : ObjId} {data : Bytes} {t s u : Tensor}
  {held : List ObjId} {payload : Payload κ}

namespace Tensor

/-- The tensors look at the same part of a memory in the same way. -/
structure SameView (s t : Tensor) : Prop where
  shape : s.shape = t.shape
  dtype : s.dtype = t.dtype
  unit : s.unit = t.unit
  byteOffset : s.byteOffset = t.byteOffset

namespace SameView

theorem refl (t : Tensor) : SameView t t := ⟨rfl, rfl, rfl, rfl⟩

theorem symm (h : SameView s t) : SameView t s :=
  ⟨h.shape.symm, h.dtype.symm, h.unit.symm, h.byteOffset.symm⟩

theorem trans (h : SameView s t) (h' : SameView t u) : SameView s u :=
  ⟨h.shape.trans h'.shape, h.dtype.trans h'.dtype, h.unit.trans h'.unit,
    h.byteOffset.trans h'.byteOffset⟩

theorem size (h : SameView s t) : s.size = t.size := by
  rw [Tensor.size, Tensor.size, Tensor.length, Tensor.length, h.shape, h.dtype]

theorem withBytes (t : Tensor) (data : Bytes) : SameView (t.withBytes data) t := ⟨rfl, rfl, rfl, rfl⟩

end SameView

end Tensor

namespace World

/-- What is asked of a tensor: that it can be exported and imported, that it looks at shared memory
as the older tensor does from which it has the memory, and that memory of its own reaches to the end
of the elements. -/
structure Fits (w : World κ) (id : ObjId) (t : Tensor) : Prop where
  nonneg : ∀ n ∈ t.shape, 0 ≤ n
  source : ∀ {y}, t.source? = some y → y.index < id.index ∧ ∃ s, w.tensor? y = some s ∧ s.SameView t
  reaches : ∀ {size}, t.source? = none → t.size = .ok size → t.byteOffset + size ≤ t.ownBytes.length

/-- All tensors fit. -/
structure Chained (w : World κ) : Prop where
  fits : ∀ {id t}, w.tensor? id = some t → w.Fits id t

/-! ## Other worlds -/

theorem tensor?_of_heap (hheap : w'.heap = w.heap) (id : ObjId) : w'.tensor? id = w.tensor? id := by
  rw [tensor?, tensor?, World.payload?, World.payload?, hheap]

/-- A tensor stays if its object does. -/
theorem tensor?_of_grown {h' : Heap κ} (hgrown : Heap.Grown h h') (ht : (w.withHeap h).tensor? id = some t) :
    (w.withHeap h').tensor? id = some t := by
  obtain ⟨o, ho, hpayload⟩ := tensor?_eq_some.mp ht
  obtain ⟨n, hn⟩ := hgrown id o ho
  exact tensor?_eq_some.mpr ⟨_, hn, hpayload⟩

theorem tensor?_alloc (typeIndex : Nat) (ht : w.tensor? id = some t) :
    (w.withHeap (w.heap.alloc typeIndex payload).1).tensor? id = some t :=
  tensor?_of_grown (Heap.grown_alloc _ _ _) ht

/-- A tensor over other bytes looks at them as it did. -/
theorem exists_tensor?_withMemory (id : ObjId) (data : Bytes) (ht : w.tensor? x = some t) :
    ∃ s, (w.withMemory id data).tensor? x = some s ∧ s.SameView t := by
  rw [tensor?_withMemory, ht]
  split
  · exact ⟨_, rfl, .withBytes t data⟩
  · exact ⟨t, rfl, .refl t⟩

/-- A tensor that is still there is the tensor that it was. -/
theorem tensor?_of_shrunk {o : Object κ} (hgrown : Heap.Grown h w.heap) (ho : h.get? id = some o)
    (ht : w.tensor? id = some t) : (w.withHeap h).tensor? id = some t := by
  obtain ⟨o', ho', hpayload⟩ := tensor?_eq_some.mp ht
  obtain ⟨n, hn⟩ := hgrown id o ho
  obtain rfl := Option.some.inj (ho'.symm.trans hn)
  exact tensor?_eq_some.mpr ⟨o, ho, hpayload⟩

theorem Fits.of_heap (hfits : w.Fits id t) (hheap : w'.heap = w.heap) : w'.Fits id t :=
  ⟨hfits.nonneg, fun hy => by simpa only [tensor?_of_heap hheap] using hfits.source hy,
    hfits.reaches⟩

namespace Chained

theorem of_heap (hw : w.Chained) (hheap : w'.heap = w.heap) : w'.Chained :=
  ⟨fun ht => (hw.fits (tensor?_of_heap hheap _ ▸ ht)).of_heap hheap⟩

/-- A new object fits if it looks at shared memory as the source does. -/
theorem alloc (hw : w.Chained) (typeIndex : Nat)
    (hnew : ∀ t, payload = .tensor t → w.Fits ⟨w.heap.cells.size⟩ t) :
    (w.withHeap (w.heap.alloc typeIndex payload).1).Chained := by
  refine ⟨fun {id t} ht => ?_⟩
  have hfits : w.Fits id t := by
    obtain ⟨o, ho, hpayload⟩ := tensor?_eq_some.mp ht
    rw [withHeap_heap, Heap.get?_alloc] at ho
    split at ho
    · rename_i hid
      cases id
      cases hid
      cases ho
      exact hnew t hpayload
    · exact hw.fits (tensor?_eq_some.mpr ⟨o, ho, hpayload⟩)
  refine ⟨hfits.nonneg, fun hy => ?_, hfits.reaches⟩
  obtain ⟨hlt, s, hs, hview⟩ := hfits.source hy
  exact ⟨hlt, s, tensor?_alloc typeIndex hs, hview⟩

/-- Sources outlive those that share their memory, since they are referred to. -/
theorem shrunk (hw : w.Chained) (hgrown : Heap.Grown h w.heap) (hb : h.Owned held) :
    (w.withHeap h).Chained := by
  refine ⟨fun {id t} ht => ?_⟩
  have hold : ∀ {x s}, (w.withHeap h).tensor? x = some s → w.tensor? x = some s := fun hs =>
    tensor?_of_grown (w := w) hgrown hs
  obtain ⟨hnonneg, hsource, hreaches⟩ := hw.fits (hold ht)
  refine ⟨hnonneg, fun {y} hy => ?_, hreaches⟩
  obtain ⟨hlt, s, hs, hview⟩ := hsource hy
  obtain ⟨o, ho, hpayload⟩ := tensor?_eq_some.mp ht
  have hrefers : y ∈ o.payload.references := by
    rw [hpayload, Tensor.references_tensor, hy]
    exact List.mem_singleton_self y
  obtain ⟨o', ho'⟩ := hb.alive_of_reference ho hrefers
  exact ⟨hlt, s, tensor?_of_shrunk hgrown ho' hs, hview⟩

/-! ## Homes -/

variable (hw : w.Chained)
include hw

/-- Sources are older, so chains end. -/
theorem memoryHome_eq {n m : Nat} (hid : id.index ≤ n) (hle : n ≤ m) :
    w.memoryHome m id = w.memoryHome n id ∧ w.source? (w.memoryHome n id) = none := by
  have holder : ∀ {x y}, w.source? x = some y → y.index < x.index := by
    intro x y hsource
    obtain ⟨t, ht, hshared⟩ := Option.bind_eq_some_iff.mp hsource
    exact ((hw.fits ht).source hshared).1
  refine memoryHome_of_shorter (P := fun n id => id.index ≤ n) (fun {x} hx => ?_)
    (fun hx hsource => ?_) hid hle
  · refine Option.eq_none_iff_forall_ne_some.mpr fun y hy => ?_
    exact absurd (holder hy) (by omega)
  · exact Nat.le_of_lt_succ ((holder hsource).trans_le hx)

/-- A tensor that shares the memory of another one has the same home. -/
theorem home_of_source (hsource : w.source? x = some y) : w.home x = w.home y := by
  obtain ⟨t, ht, hshared⟩ := Option.bind_eq_some_iff.mp hsource
  obtain ⟨o, ho, -⟩ := tensor?_eq_some.mp ht
  have hlt := Heap.lt_size_of_get? ho
  obtain ⟨n, hn⟩ := Nat.exists_eq_add_of_le' (Nat.succ_le_of_lt (Nat.zero_lt_of_lt hlt))
  have holder := ((hw.fits ht).source hshared).1
  rw [home, home, hn, memoryHome_of_source hsource]
  exact ((hw.memoryHome_eq (by omega) (Nat.le_succ n)).1).symm

/-- The home of a tensor keeps the memory, and looks at it as the tensor does. -/
theorem exists_home (ht : w.tensor? id = some t) :
    ∃ s, w.tensor? (w.home id) = some s ∧ s.source? = none ∧ s.SameView t := by
  have hfind : ∀ (n : Nat) {id : ObjId} {t : Tensor}, w.tensor? id = some t →
      ∃ s, w.tensor? (w.memoryHome n id) = some s ∧ s.SameView t := by
    intro n
    induction n with
    | zero => exact fun ht => ⟨_, ht, .refl _⟩
    | succ n ih =>
        intro id t ht
        cases hshared : t.source? with
        | none =>
            rw [memoryHome_of_no_source (by rw [source?, ht, Option.bind_some, hshared])]
            exact ⟨t, ht, .refl t⟩
        | some y =>
            obtain ⟨-, s, hs, hview⟩ := (hw.fits ht).source hshared
            obtain ⟨u, hu, hview'⟩ := ih hs
            rw [memoryHome_of_source (by rw [source?, ht, Option.bind_some, hshared])]
            exact ⟨u, hu, hview'.trans hview⟩
  obtain ⟨s, hs, hview⟩ := hfind w.heap.cells.size ht
  obtain ⟨o, ho, -⟩ := tensor?_eq_some.mp ht
  have hend := (hw.memoryHome_eq (Heap.lt_size_of_get? ho).le (Nat.le_refl _)).2
  rw [source?, hs, Option.bind_some] at hend
  exact ⟨s, hs, hend, hview⟩

theorem keepsMemory (ht : w.tensor? id = some t) : w.KeepsMemory id := by
  obtain ⟨s, hs, hown, -⟩ := hw.exists_home ht
  exact ⟨s, hs, hown⟩

/-- The memory reaches to the end of the elements. -/
theorem reaches {size : Nat} (ht : w.tensor? id = some t) (hsize : t.size = .ok size) :
    t.byteOffset + size ≤ (w.memoryBytes id).length := by
  obtain ⟨s, hs, hown, hview⟩ := hw.exists_home ht
  rw [memoryBytes_of_home hs, ← hview.byteOffset]
  exact (hw.fits hs).reaches hown (hview.size.trans hsize)

/-! ## What is shown along a chain -/

/-- Tensors that are linked by sharing, in any direction and over any number of others, have the same
home. -/
theorem home_of_linked (hlinked : EqvGen (fun x y => w.source? x = some y) x y) :
    w.home x = w.home y := by
  induction hlinked with
  | rel x y hsource => exact hw.home_of_source hsource
  | refl x => rfl
  | symm x y _ ih => exact ih.symm
  | trans x y z _ _ ih ih' => exact ih.trans ih'

/-- They look at the memory in the same way. -/
theorem sameView_of_home (ht : w.tensor? x = some t) (hu : w.tensor? y = some u)
    (hhome : w.home y = w.home x) : u.SameView t := by
  obtain ⟨s, hs, -, hview⟩ := hw.exists_home ht
  obtain ⟨s', hs', -, hview'⟩ := hw.exists_home hu
  rw [hhome, hs] at hs'
  cases hs'
  exact hview'.symm.trans hview

/-- They show the same elements. -/
theorem shows_same (ht : w.tensor? x = some t) (hu : w.tensor? y = some u)
    (hlinked : EqvGen (fun x y => w.source? x = some y) x y) :
    u.shape = t.shape ∧ u.dtype = t.dtype ∧ w.tensorBytes y u = w.tensorBytes x t := by
  have hhome := (hw.home_of_linked hlinked).symm
  have hview := hw.sameView_of_home ht hu hhome
  refine ⟨hview.shape, hview.dtype, ?_⟩
  rw [tensorBytes, tensorBytes, hview.size, hview.byteOffset, memoryBytes_congr hhome]

/-! ## Writing -/

/-- Bytes are written if there are as many as the elements have, and refused otherwise. -/
theorem fill_cases (ht : w.tensor? id = some t) (data : Bytes) :
    (∃ fault, Tensor.fill id t data w = (.error fault, w)) ∨
    (t.size = .ok data.length ∧ Tensor.fill id t data w =
      (.ok (), w.withMemory id (Bytes.overwrite (w.memoryBytes id) t.byteOffset data))) := by
  rw [Tensor.fill]
  cases hsize : t.size with
  | error fault => exact .inl ⟨fault, run_bind_of_error rfl⟩
  | ok size =>
  rw [run_bind_of_ok (Blob.ofFallible_of_ok rfl)]
  by_cases hlength : size = data.length
  · rw [if_neg (not_not_intro hlength)]
    refine .inr ⟨congrArg Except.ok hlength, ?_⟩
    exact Tensor.writeMemory_eq (hw.keepsMemory ht) _ _
  · rw [if_pos hlength]
    exact .inl ⟨_, run_bind_of_error rfl⟩

/-- Other bytes, as many as before, leave everything in place. -/
theorem withMemory (ht : w.tensor? id = some t) (hlength : data.length = (w.memoryBytes id).length) :
    (w.withMemory id data).Chained := by
  obtain ⟨home, hhome, hown, -⟩ := hw.exists_home ht
  refine ⟨fun {x s'} hs' => ?_⟩
  rw [tensor?_withMemory] at hs'
  split at hs'
  · rename_i hx
    subst hx
    rw [hhome, Option.map_some, Option.some.injEq] at hs'
    subst hs'
    refine ⟨(hw.fits hhome).nonneg, fun hy => ?_, fun _ hsize => ?_⟩
    · rw [Tensor.withBytes_source?, hown] at hy
      cases hy
    · rw [Tensor.ownBytes_withBytes hown, hlength, memoryBytes_of_home hhome]
      exact (hw.fits hhome).reaches hown hsize
  · obtain ⟨hnonneg, hsource, hreaches⟩ := hw.fits hs'
    refine ⟨hnonneg, fun hy => ?_, hreaches⟩
    obtain ⟨hlt, s, hs, hview⟩ := hsource hy
    obtain ⟨u, hu, hview'⟩ := exists_tensor?_withMemory id data hs
    exact ⟨hlt, u, hu, hview'.trans hview⟩

/-- What is written is as long as what was there. -/
theorem length_overwrite (ht : w.tensor? id = some t) (hsize : t.size = .ok data.length) :
    (Bytes.overwrite (w.memoryBytes id) t.byteOffset data).length = (w.memoryBytes id).length := by
  have hreaches := hw.reaches ht hsize
  rw [Bytes.overwrite, List.length_append, List.length_append, List.length_take, List.length_drop]
  omega

/-- What is written through a tensor is shown by all that are linked with it. -/
theorem shows_written (ht : w.tensor? x = some t)
    (hrun : Tensor.fill x t data w = (.ok (), w')) (hu : w'.tensor? y = some u)
    (hlinked : EqvGen (fun x y => w'.source? x = some y) x y) : w'.tensorBytes y u = .ok data := by
  rcases hw.fill_cases ht data with ⟨fault, hrefused⟩ | ⟨hsize, hwritten⟩
  · rw [hrefused] at hrun
    cases hrun
  · rw [hwritten] at hrun
    cases hrun
    have hlength := hw.length_overwrite ht hsize
    have hw' := hw.withMemory ht hlength
    have hhome := (hw'.home_of_linked hlinked).symm
    obtain ⟨s, hs, hview₀⟩ := exists_tensor?_withMemory x
      (Bytes.overwrite (w.memoryBytes x) t.byteOffset data) ht
    have hview := (hw'.sameView_of_home hs hu hhome).trans hview₀
    have hstart : t.byteOffset ≤ (w.memoryBytes x).length :=
      Nat.le_of_add_right_le (hw.reaches ht hsize)
    rw [tensorBytes_of_size (hview.size.trans hsize), hview.byteOffset, memoryBytes_congr hhome,
      memoryBytes_withMemory (hw.keepsMemory ht) rfl]
    simp [Bytes.overwrite, Nat.min_eq_left hstart]

end Chained

end World

end ObjectRuntime
