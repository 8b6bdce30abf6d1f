import ObjectRuntime.Proofs.Reflection.Copies
import ObjectRuntime.Proofs.Reflection.Objects
import ObjectRuntime.Proofs.Reflection.Questions
set_option autoImplicit false

/-!
# Making objects

While objects are made the heap grows, every reference that has been obtained is held, and what has
been made of the nodes of a graph are copies of the objects with their numbers (`Build.Ready`).
`Build.Makes` says of a part of this that it succeeds and keeps all that.
-/

namespace ObjectRuntime

open Heap (Grown Backed)
open World (CopyOf LocalCopy)

variable {κ α β σ : Type} {w : World κ}

/-- The world with another heap. -/
def World.withHeap (w : World κ) (h : Heap κ) : World κ := { w with heap := h }

@[simp] theorem World.withHeap_heap (w : World κ) (h : Heap κ) : (w.withHeap h).heap = h := rfl

@[simp] theorem World.withHeap_types (w : World κ) (h : Heap κ) :
    (w.withHeap h).types = w.types := rfl

theorem World.sameClasses_withHeap (w : World κ) (h : Heap κ) :
    World.SameClasses w (w.withHeap h) := ⟨rfl, rfl⟩

namespace Run

variable {h h' : Heap κ} {c : ObjectClass} {first : Nat}

/-- References stay held over an operation that succeeds. -/
theorem releasingOnFault_of_ok {ids : List ObjId} {body : Run κ α} {a : α} {v v' : World κ}
    (hbody : body v = (.ok a, v')) : releasingOnFault ids body v = (.ok a, v') := by
  simp only [releasingOnFault, onFault, hbody]

/-- References are given up when an operation fails. -/
theorem releasingOnFault_of_error {ids : List ObjId} {body : Run κ α} {fault : Fault}
    {v v' : World κ} (hbody : body v = (.error fault, v')) :
    releasingOnFault ids body v =
      (.error fault, v'.withHeap (ids.foldl Heap.release v'.heap)) := by
  rw [releasingOnFault, onFault, hbody]
  rfl

/-- An object of a class that has been looked up is made at the end of the heap. -/
theorem create_of_classIndex? (hc : w.types.classIndex? c = some first) (payload : Payload κ) :
    create c payload (w.withHeap h) =
      (.ok ⟨h.cells.size⟩, w.withHeap (h.alloc first payload).1) := by
  have htouch : onFault (touch c) (fun w => { w with heap := w.heap.discard payload })
      (w.withHeap h) = (.ok first, w.withHeap h) := by
    rw [onFault, touch_of_classIndex? (w := w.withHeap h) hc]
  rw [create, run_bind_of_ok htouch]
  rfl

end Run

namespace Build

variable {numbers : List (ObjId × Nat)} {s s' s'' : BuildState} {h h' h'' : Heap κ}
  {post : BuildState → Heap κ → α → Prop} {post' : BuildState → Heap κ → β → Prop}

/-- What has been made of an object is the one copy that stands for it, unless it is a string or a
box, of which there may be several. -/
def StandsFor (w : World κ) (numbers : List (ObjId × Nat)) (s : BuildState) (a b : ObjId) : Prop :=
  (∃ n, numbers.lookup a = some n ∧ s.finished.lookup n = some (some b)) ∨ w.IsLoose a

/-- A copy of an object that stands for it. -/
def Copied (w : World κ) (numbers : List (ObjId × Nat)) (s : BuildState) (h : Heap κ)
    (a b : ObjId) : Prop := CopyOf w h a b ∧ StandsFor w numbers s a b

/-- What holds between the steps of making objects.  What is held by the copies of objects stands for
what these hold. -/
structure Ready (w : World κ) (numbers : List (ObjId × Nat)) (s : BuildState) (h : Heap κ) :
    Prop where
  grown : Grown w.heap h
  base : w.heap.cells.size ≤ h.cells.size
  backed : Backed h w.heap.cells.size s.held
  finished : ∀ n r, s.finished.lookup n = some r → ∃ id b, numbers.lookup id = some n ∧
    r = some b ∧ CopyOf w h id b ∧ b ∈ s.held
  distinct : ∀ n n' b, s.finished.lookup n = some (some b) →
    s.finished.lookup n' = some (some b) → n = n'
  shares : ∀ a n b, numbers.lookup a = some n → s.finished.lookup n = some (some b) →
    LocalCopy w h (Copied w numbers s h) a b
  pending : ∀ n ∈ s.path, s.finished.lookup n = none

/-- What was held is still held, what was finished is still finished, and no node is being read that
was not. -/
structure Onward (s : BuildState) (h : Heap κ) (s' : BuildState) (h' : Heap κ) : Prop where
  grown : Grown h h'
  held : ∀ x ∈ s.held, x ∈ s'.held
  finished : ∀ n r, s.finished.lookup n = some r → s'.finished.lookup n = some r
  path : s'.path = s.path

theorem Onward.refl (s : BuildState) (h : Heap κ) : Onward s h s h :=
  ⟨.refl h, fun _ hx => hx, fun _ _ hr => hr, rfl⟩

theorem Onward.trans (h₁ : Onward s h s' h') (h₂ : Onward s' h' s'' h'') : Onward s h s'' h'' :=
  ⟨h₁.grown.trans h₂.grown, fun x hx => h₂.held x (h₁.held x hx),
    fun n r hr => h₂.finished n r (h₁.finished n r hr), h₂.path.trans h₁.path⟩

/-- What stands for an object stands for it from then on. -/
theorem Copied.onward {a b : ObjId} (hab : Copied w numbers s h a b) (honward : Onward s h s' h') :
    Copied w numbers s' h' a b :=
  ⟨hab.1.mono honward.grown, hab.2.imp_left fun ⟨n, hn, hdone⟩ =>
    ⟨n, hn, honward.finished n _ hdone⟩⟩

/-- The part succeeds, keeps what holds between steps and delivers what `post` says. -/
def Makes (w : World κ) (numbers : List (ObjId × Nat)) (body : Build κ α) (s : BuildState)
    (h : Heap κ) (post : BuildState → Heap κ → α → Prop) : Prop :=
  ∃ a s' h', body s (w.withHeap h) = ((.ok a, s'), w.withHeap h') ∧ Ready w numbers s' h' ∧
    Onward s h s' h' ∧ post s' h' a

/-- A sequence goes on where its first part ended. -/
theorem bind_of_ok {x : Build κ α} {f : α → Build κ β} {a : α} {v v' : World κ}
    (hx : x s v = ((.ok a, s'), v')) : (x >>= f) s v = f a s' v' := by
  simp only [bind, ExceptT.bind, ExceptT.mk, StateT.bind, hx]
  rfl

/-- Running an operation on the world changes nothing else. -/
theorem ofRun_of_ok {run : Run κ α} {a : α} {v v' : World κ} (hrun : run v = (.ok a, v')) :
    ofRun run s v = ((.ok a, s), v') := by
  simp only [ofRun, hrun]

/-- A result is delivered and its references are held. -/
theorem taking_of_ok {run : Run κ α} {owned : α → List ObjId} {f : α → β} {a : α} {v v' : World κ}
    (hrun : run v = (.ok a, v')) :
    (do
      let a ← ofRun run
      hold (owned a)
      return f a : Build κ β) s v =
        ((.ok (f a), { s with held := owned a ++ s.held }), v') := by
  rw [bind_of_ok (ofRun_of_ok hrun)]
  rfl

namespace Makes

theorem pure {a : α} (hready : Ready w numbers s h) (ha : post s h a) :
    Makes w numbers (pure a) s h post :=
  ⟨a, s, h, rfl, hready, .refl s h, ha⟩

theorem bind {x : Build κ α} {f : α → Build κ β} (hx : Makes w numbers x s h post)
    (hf : ∀ a s' h', Ready w numbers s' h' → Onward s h s' h' → post s' h' a →
      Makes w numbers (f a) s' h' post') : Makes w numbers (x >>= f) s h post' := by
  obtain ⟨a, s', h', hrun, hready, honward, ha⟩ := hx
  obtain ⟨b, s'', h'', hrun', hready', honward', hb⟩ := hf a s' h' hready honward ha
  exact ⟨b, s'', h'', (bind_of_ok hrun).trans hrun', hready', honward.trans honward', hb⟩

theorem imp {post' : BuildState → Heap κ → α → Prop} {x : Build κ α}
    (hx : Makes w numbers x s h post)
    (himp : ∀ a s' h', Onward s h s' h' → post s' h' a → post' s' h' a) :
    Makes w numbers x s h post' := by
  obtain ⟨a, s', h', hrun, hready, honward, ha⟩ := hx
  exact ⟨a, s', h', hrun, hready, honward, himp a s' h' honward ha⟩

/-- After an operation that only looks at the world everything is as before. -/
theorem looking {run : Run κ α} {f : α → Build κ β} {a : α}
    (hrun : run (w.withHeap h) = (.ok a, w.withHeap h)) (hf : Makes w numbers (f a) s h post') :
    Makes w numbers (ofRun run >>= f) s h post' := by
  obtain ⟨b, s', h', hrest, hmade⟩ := hf
  exact ⟨b, s', h', (bind_of_ok (ofRun_of_ok hrun)).trans hrest, hmade⟩

/-- The parts for the elements of a list make one result each.  What is said of the results is said
in terms of another list beside it. -/
theorem mapM {χ : Type} {f : α → Build κ β} {rel : BuildState → Heap κ → χ → β → Prop}
    {beside : χ → α → Prop} {cs : List χ} {as : List α} (hcs : List.Forall₂ beside cs as)
    (hready : Ready w numbers s h)
    (hf : ∀ c ∈ cs, ∀ a, beside c a → ∀ s' h', Ready w numbers s' h' → Onward s h s' h' →
      Makes w numbers (f a) s' h' fun s h b => rel s h c b)
    (hrel : ∀ c b s h s' h', Onward s h s' h' → rel s h c b → rel s' h' c b) :
    Makes w numbers (as.mapM f) s h fun s h bs => List.Forall₂ (rel s h) cs bs := by
  induction hcs generalizing s h with
  | nil => exact pure hready .nil
  | @cons c a cs as hca _ ih =>
      obtain ⟨hc, hcs⟩ := List.forall_mem_cons.mp hf
      rw [List.mapM_cons]
      refine bind (hc a hca s h hready (.refl s h)) fun b s₁ h₁ hready₁ honward₁ hb => ?_
      refine bind (ih hready₁ fun c' hc' a' hca' s' h' hready' honward' =>
        hcs c' hc' a' hca' s' h' hready' (honward₁.trans honward'))
        fun bs s₂ h₂ hready₂ honward₂ hbs => ?_
      exact pure hready₂ (.cons (hrel c b s₁ h₁ s₂ h₂ honward₂ hb) hbs)

end Makes

/-- References that are obtained are held beside the others. -/
theorem Ready.take (hready : Ready w numbers s h) {owned : List ObjId} (hgrown : Grown h h')
    (hsize : h.cells.size ≤ h'.cells.size)
    (hbacked : Backed h' w.heap.cells.size (owned ++ s.held)) :
    Ready w numbers { s with held := owned ++ s.held } h' where
  grown := hready.grown.trans hgrown
  base := Nat.le_trans hready.base hsize
  backed := hbacked
  finished n r hr := by
    obtain ⟨id, b, hid, hb, hcopy, hheld⟩ := hready.finished n r hr
    exact ⟨id, b, hid, hb, hcopy.mono hgrown, List.mem_append_right owned hheld⟩
  distinct := hready.distinct
  shares a n b hn hdone :=
    (hready.shares a n b hn hdone).mono hgrown fun _ _ hxy => ⟨hxy.1.mono hgrown, hxy.2⟩
  pending := hready.pending

theorem Onward.take {owned : List ObjId} (hgrown : Grown h h') :
    Onward s h { s with held := owned ++ s.held } h' :=
  ⟨hgrown, fun _ hx => List.mem_append_right owned hx, fun _ _ hr => hr, rfl⟩

/-- What is not alive has not been made of any node. -/
theorem Ready.notFinished (hready : Ready w numbers s h) {b : ObjId} (hb : h.get? b = none)
    (n : Nat) : s.finished.lookup n ≠ some (some b) := by
  intro hn
  obtain ⟨id, b', -, heq, -, hheld⟩ := hready.finished n _ hn
  obtain rfl := Option.some.inj heq
  obtain ⟨-, o, ho⟩ := hready.backed.alive_of_mem hheld
  simp [hb] at ho

/-- The result is a new copy of an object, and holds what stands for the objects that this holds. -/
def NewCopy (w : World κ) (numbers : List (ObjId × Nat)) (id : ObjId) (s : BuildState)
    (h : Heap κ) (r : Ref) : Prop :=
  ∃ b, r = some b ∧ CopyOf w h id b ∧ LocalCopy w h (Copied w numbers s h) id b ∧ b ∈ s.held ∧
    ∀ n, s.finished.lookup n ≠ some (some b)

/-- An operation that puts an object with the type and the content of a copy at the end of the heap,
made of references that are held, makes a new copy. -/
theorem makes_holding {run : Run κ Ref} {payload : Payload κ} {id : ObjId}
    (hready : Ready w numbers s h)
    (hrun : run (w.withHeap h) = (.ok (some ⟨h.cells.size⟩), w.withHeap
      ((h.retainAll payload.references).alloc (w.typeIndex id) payload).1))
    (hcopy : World.PayloadCopy w (Copied w numbers s h) id payload)
    (hheld : ∀ x ∈ payload.references, x ∈ s.held) :
    Makes w numbers (holding run) s h (NewCopy w numbers id) := by
  have hgrown := (Heap.grown_retainAll h payload.references).trans
    (Heap.grown_alloc _ (w.typeIndex id) payload)
  have hbacked : Backed ((h.retainAll payload.references).alloc (w.typeIndex id) payload).1
      w.heap.cells.size (⟨h.cells.size⟩ :: s.held) := by
    have halloc : Backed ((h.retainAll payload.references).alloc (w.typeIndex id) payload).1
        w.heap.cells.size (⟨(h.retainAll payload.references).cells.size⟩ :: s.held) :=
      (hready.backed.retainAll hheld).alloc (by simpa using hready.base)
    rwa [Heap.size_retainAll] at halloc
  have hlocal : LocalCopy w ((h.retainAll payload.references).alloc (w.typeIndex id) payload).1
      (Copied w numbers s h) id ⟨h.cells.size⟩ := by
    refine ⟨⟨w.typeIndex id, 1, payload⟩, ?_, rfl, hcopy⟩
    rw [Heap.get?_alloc, if_pos (by simp)]
  refine ⟨_, _, _, taking_of_ok hrun, hready.take hgrown (by simp) hbacked, .take hgrown,
    ⟨h.cells.size⟩, rfl, .intro ?_, ?_, List.mem_cons_self, ?_⟩
  · exact hlocal.mono (.refl _) fun _ _ hxy => hxy.1.mono hgrown
  · exact hlocal.mono (.refl _) fun _ _ hxy => ⟨hxy.1.mono hgrown, hxy.2⟩
  · exact hready.notFinished (by simp [Heap.get?])

theorem makes_make {c : ObjectClass} {payload : Payload κ} {id : ObjId}
    (hready : Ready w numbers s h) (hclass : w.types.classIndex? c = some (w.typeIndex id))
    (hcopy : World.PayloadCopy w (Copied w numbers s h) id payload)
    (hheld : ∀ x ∈ payload.references, x ∈ s.held) :
    Makes w numbers (make c payload) s h (NewCopy w numbers id) := by
  refine makes_holding hready ?_ hcopy hheld
  have hcreate := Run.create_of_classIndex? (h := h.retainAll payload.references) hclass payload
  have hretain : Run.modifyHeap (·.retainAll payload.references) (w.withHeap h) =
      (.ok (), w.withHeap (h.retainAll payload.references)) := rfl
  rw [Heap.size_retainAll] at hcreate
  rw [run_bind_of_ok hretain, run_bind_of_ok hcreate]
  rfl

end Build

end ObjectRuntime
