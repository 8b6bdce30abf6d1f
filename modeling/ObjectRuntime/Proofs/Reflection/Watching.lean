import ObjectRuntime.Proofs.Reflection.FreeVariables
import ObjectRuntime.Proofs.Reflection.Symmetry
set_option autoImplicit false

/-!
# What is bound at every point of a comparison

Two maps lead from what is bound on the left to its counterparts on the right and back.  They are
inverse to each other if no pair is ever bound of which one object is bound already
(`Binding.Inverse`).  Two objects are found unbound before their contents are compared and are bound
only afterwards, and the comparison in between binds others; in graphs without cycles these lie below
the two objects, which therefore are still unbound.

A comparison that is watched notes what is bound whenever two objects meet, and again when they have
been found equal (`watch`).  It answers what the comparison answers, and its notes survive a fault.
They follow each other by single pairs (`Trail`), so they miss no point, whether the comparison finds
a difference or not.
-/

namespace ObjectRuntime

open Relation (ReflTransGen TransGen)

namespace Equality

variable {κ α β : Type} {w : World κ} {b b' b₁ last : Binding} {l r x y : ObjId}
  {d : Bool} {L L' R R' : ObjId → Prop} {notes notes' : List Binding}

/-! ## The two maps -/

namespace Binding

/-- The object of the left graph to which an object of the right one is bound. -/
def original? (b : Binding) (id : ObjId) : Option ObjId := b.flip.counterpart? id

@[simp] theorem counterpart?_nil (a : ObjId) : counterpart? [] a = none := rfl

@[simp] theorem original?_nil (a : ObjId) : original? [] a = none := rfl

/-- A pair that is bound is entered into the map from left to right. -/
@[simp] theorem counterpart?_cons (x y : ObjId) (b : Binding) :
    counterpart? ((x, y) :: b) = Function.update b.counterpart? x (some y) := by
  funext a
  by_cases h : a = x
  · subst h
    simp [counterpart?]
  · have hne : (a == x) = false := beq_false_of_ne h
    simp [counterpart?, List.lookup_cons, h, hne]

/-- A pair that is bound is entered into the map from right to left. -/
@[simp] theorem original?_cons (x y : ObjId) (b : Binding) :
    original? ((x, y) :: b) = Function.update b.original? y (some x) :=
  counterpart?_cons y x b.flip

/-- What is bound on the right is what the map from right to left knows. -/
theorem isTaken_eq (b : Binding) (y : ObjId) : b.isTaken y = (b.original? y).isSome := by
  induction b with
  | nil => rfl
  | cons p b ih =>
      obtain ⟨x, z⟩ := p
      rw [original?_cons]
      by_cases h : y = z
      · subst h
        simp [isTaken]
      · rw [Function.update_of_ne h, ← ih]
        simp [isTaken, Ne.symm h]

/-- The two maps are inverse to each other, and what is bound has one type. -/
structure Inverse (w : World κ) (b : Binding) : Prop where
  inverse : ∀ x y, b.original? y = some x ↔ b.counterpart? x = some y
  typeIndex : ∀ x y, b.counterpart? x = some y → w.typeIndex x = w.typeIndex y

theorem Inverse.nil (w : World κ) : Inverse w [] := by constructor <;> simp

/-- Neither object of the pair is bound, and both have one type. -/
structure Fresh (w : World κ) (b : Binding) (x y : ObjId) : Prop where
  left : b.counterpart? x = none
  right : b.original? y = none
  typeIndex : w.typeIndex x = w.typeIndex y

/-- Binding two objects of one type that are not bound keeps the maps inverse. -/
theorem Inverse.cons (h : Inverse w b) (hfresh : Fresh w b x y) : Inverse w ((x, y) :: b) := by
  have hleft : ∀ c, b.original? c ≠ some x := fun c hc => by
    simpa [hfresh.left] using (h.inverse x c).mp hc
  have hright : ∀ c, b.counterpart? c ≠ some y := fun c hc => by
    simpa [hfresh.right] using (h.inverse c y).mpr hc
  constructor
  · intro u v
    by_cases hu : u = x <;> by_cases hv : v = y
    · simp [hu, hv]
    · simpa [hu, hv, Ne.symm hv] using hleft v
    · simpa [hu, hv, Ne.symm hu] using hright u
    · simpa [hu, hv] using h.inverse u v
  · intro u v huv
    by_cases hu : u = x
    · subst hu
      rw [counterpart?_cons, Function.update_self] at huv
      cases huv
      exact hfresh.typeIndex
    · rw [counterpart?_cons, Function.update_of_ne hu] at huv
      exact h.typeIndex u v huv

end Binding

open Binding

/-! ## Trails -/

/-- Nothing is bound, or one pair of objects of two sets that were not bound before. -/
inductive Binds (w : World κ) (L R : ObjId → Prop) (b : Binding) : Binding → Prop
  | nothing : Binds w L R b b
  | pair {x y : ObjId} (left : L x) (right : R y) (fresh : Fresh w b x y) :
      Binds w L R b ((x, y) :: b)

/-- What has been noted from `b` to the last binding, each from the one before. -/
inductive Trail (w : World κ) (L R : ObjId → Prop) : Binding → List Binding → Binding → Prop
  | rest (b : Binding) : Trail w L R b [] b
  | step {b b₁ last : Binding} {notes : List Binding} (first : Binds w L R b b₁)
      (others : Trail w L R b₁ notes last) : Trail w L R b (b₁ :: notes) last

theorem Binds.mono (h : Binds w L R b b') (hL : ∀ x, L x → L' x) (hR : ∀ y, R y → R' y) :
    Binds w L' R' b b' := by
  cases h with
  | nothing => exact .nothing
  | pair hx hy hfresh => exact .pair (hL _ hx) (hR _ hy) hfresh

theorem Binds.inverse (h : Binds w L R b b') (hb : Inverse w b) : Inverse w b' := by
  cases h with
  | nothing => exact hb
  | pair _ _ hfresh => exact hb.cons hfresh

namespace Trail

theorem append (h : Trail w L R b notes b₁) (h' : Trail w L R b₁ notes' last) :
    Trail w L R b (notes ++ notes') last := by
  induction h with
  | rest => exact h'
  | step hfirst _ ih => exact .step hfirst (ih h')

theorem mono (h : Trail w L R b notes last) (hL : ∀ x, L x → L' x) (hR : ∀ y, R y → R' y) :
    Trail w L' R' b notes last := by
  induction h with
  | rest b => exact .rest b
  | step hfirst _ ih => exact .step (hfirst.mono hL hR) ih

/-- Two objects in neither set that are not bound at the start are not bound at the end. -/
theorem fresh (h : Trail w L R b notes last) (hx : ¬ L x) (hy : ¬ R y) (hb : Fresh w b x y) :
    Fresh w last x y := by
  induction h with
  | rest => exact hb
  | step hfirst _ ih =>
      refine ih ?_
      cases hfirst with
      | nothing => exact hb
      | pair hleft hright =>
          have hne : x ≠ _ := fun heq => hx (heq ▸ hleft)
          have hne' : y ≠ _ := fun heq => hy (heq ▸ hright)
          constructor
          · rw [counterpart?_cons, Function.update_of_ne hne, hb.left]
          · rw [original?_cons, Function.update_of_ne hne', hb.right]
          · exact hb.typeIndex

/-- The maps are inverse wherever something is noted. -/
theorem inverse (h : Trail w L R b notes last) (hb : Inverse w b) :
    ∀ c ∈ notes, Inverse w c := by
  induction h with
  | rest => exact fun c hc => nomatch hc
  | step hfirst _ ih =>
      have h₁ := hfirst.inverse hb
      exact List.forall_mem_cons.mpr ⟨h₁, ih h₁⟩

theorem isChain (h : Trail w L R b notes last) : (b :: notes).IsChain (Binds w L R) := by
  induction h with
  | rest => exact .singleton _
  | step hfirst _ ih => exact .cons_cons hfirst ih

theorem getLast (h : Trail w L R b notes last) : notes.getLast?.getD b = last := by
  induction h with
  | rest => rfl
  | step hfirst hrest ih =>
      rw [List.getLast?_cons, Option.getD_some, ih]

end Trail

/-! ## Watching a comparison -/

/-- An answer, and what was noted on the way to it. -/
structure Watched (α : Type) where
  answer : Except Fault α
  notes : List Binding

namespace Watched

instance : Monad Watched where
  pure a := ⟨.ok a, []⟩
  bind x f :=
    match x.answer with
    | .ok a => ⟨(f a).answer, x.notes ++ (f a).notes⟩
    | .error fault => ⟨.error fault, x.notes⟩

@[simp] theorem bind_of_ok {x : Watched α} {f : α → Watched β} {found : α}
    (h : x.answer = .ok found) :
    x >>= f = ⟨(f found).answer, x.notes ++ (f found).notes⟩ := by
  simp only [Bind.bind, h]

@[simp] theorem bind_of_error {x : Watched α} {f : α → Watched β} {fault : Fault}
    (h : x.answer = .error fault) : x >>= f = ⟨.error fault, x.notes⟩ := by
  simp only [Bind.bind, h]

instance : LawfulMonad Watched := by
  refine LawfulMonad.mk' Watched ?_ (fun a f => rfl) ?_
  · rintro α ⟨answer, notes⟩
    cases answer <;> simp [Functor.map]
  · rintro α β γ ⟨answer, notes⟩ f g
    cases answer with
    | error fault => rfl
    | ok a => cases h : (f a).answer <;> simp [Bind.bind, h]

/-- Questions about a world that is only looked at leave no trace. -/
instance : Inquiry Watched where
  ask _ := pure ()
  ofFallible answer := ⟨answer, []⟩

theorem askKey_eq (key : Ref) : (Inquiry.askKey key : Watched Unit) = pure () := by
  cases key <;> rfl

theorem attrs_eq (w : World κ) (id : ObjId) :
    (Inquiry.attrs w id : Watched _) = pure (w.attrs id) := by
  have hask : ∀ ids : List ObjId,
      ids.forM (fun id => (Inquiry.ask (.classes id Run.travelClasses) : Watched Unit)) =
        pure () := by
    intro ids
    induction ids with
    | nil => rfl
    | cons id ids ih => exact ih
  simp only [Inquiry.attrs, hask]
  rfl

/-- The attributes of two reflected objects are compared one by one. -/
theorem inner_attrs_eq {schema schema' : Schema} (inner : Inner Watched)
    (hl : w.schemaOf? l = some schema) (hr : w.schemaOf? r = some schema') :
    inner.attrs w l r =
      if (w.shown l).length = (w.shown r).length then
        all inner.attr ((w.shown l).zip (w.shown r))
      else check false := by
  funext b
  simp only [Inner.attrs, attrs_eq, World.attrs_eq_shown hl, World.attrs_eq_shown hr]
  split_ifs with hlength
  · exact if_pos hlength
  · exact if_neg hlength

/-- Binding two objects is not noted by itself. -/
theorem binding_notes (c : Comparison Watched) : (binding l r c b).notes = (c b).notes := by
  cases h : (c b).answer <;> simp [binding, h, pure]

theorem binding_answer (c : Comparison Watched) :
    (binding l r c b).answer = binding l r (fun b => (c b).answer) b := by
  cases h : (c b).answer <;> simp [binding, h, pure, Except.pure, Bind.bind, Except.bind]

end Watched

/-- Notes what is bound before a comparison, and after it if no difference is found. -/
def noting (b : Binding) (x : Watched (Option Binding)) : Watched (Option Binding) :=
  ⟨x.answer, b :: (x.notes ++ x.answer.toOption.join.toList)⟩

/-- Compares two objects, and the objects that they hold as given. -/
def Inner.pair {m : Type → Type} [Monad m] [Inquiry m] (inner : Inner m) (w : World κ)
    (left right : ObjId) (isDefinition : Bool) : Comparison m := fun b =>
  match b.counterpart? left with
  | some counterpart => check (counterpart == right) b
  | none =>
    if b.isTaken right || w.typeIndex left != w.typeIndex right then return none
    else do
      Inquiry.ask .schemas
      match w.schemaOf? left with
      | some schema => inner.nodes w schema.kind left right isDefinition b
      | none =>
        if left = right then return some b
        else do
          Inquiry.askContent left
          inner.contents w left right isDefinition b

/-- This is what a comparison does at each level. -/
theorem objectsWithin_succ {m : Type → Type} [Monad m] [Inquiry m] (w : World κ) (mapFree : Bool)
    (depth : Nat) (l r : ObjId) (d : Bool) :
    (objectsWithin w mapFree (depth + 1) l r d : Comparison m) =
      Inner.pair ⟨mapFree, objectsWithin w mapFree depth⟩ w l r d := rfl

/-- The comparison of two objects, watched at every level. -/
def watchedWithin (w : World κ) (mapFree : Bool) : Nat → ObjId → ObjId → Bool → Comparison Watched
  | 0, _, _, _ => fun _ => Inquiry.ofFallible (.error (.panic .stackExhausted))
  | depth + 1, left, right, isDefinition => fun b =>
    noting b (Inner.pair ⟨mapFree, watchedWithin w mapFree depth⟩ w left right isDefinition b)

/-- What is bound after two references have been compared, and what was bound at every point. -/
def bindingWatched (w : World κ) (mapFree : Bool) (left right : Ref) : Watched (Option Binding) :=
  Inner.refs ⟨mapFree, watchedWithin w mapFree (w.heap.cells.size + 1)⟩ left right false []

/-- Compares two references, and notes what is bound at every point. -/
def watch (w : World κ) (left right : Ref) (mapFree : Bool) : Watched Bool :=
  return (← bindingWatched w mapFree left right).isSome

/-! ## A watched comparison beside the comparison -/

/-- The watched comparison `x` answers what `y` does, and has left a trail from `b` to what is bound
after `y`. -/
structure Watches (w : World κ) (L R : ObjId → Prop) (b : Binding) (x : Watched (Option Binding))
    (y : Except Fault (Option Binding)) : Prop where
  answer : x.answer = y
  trail : ∃ last, Trail w L R b x.notes last ∧ ∀ b', y = .ok (some b') → b' = last

/-- The two comparisons, whatever is bound. -/
def Tracks (w : World κ) (L R : ObjId → Prop) (c : Comparison Watched)
    (c' : Comparison (Except Fault)) : Prop :=
  ∀ b, Watches w L R b (c b) (c' b)

namespace Watches

variable {x : Watched (Option Binding)} {y : Except Fault (Option Binding)}

/-- A comparison that looks at no other objects binds none. -/
theorem still {y : Except Fault (Option Binding)} (h : ∀ b', y = .ok (some b') → b' = b) :
    Watches w L R b ⟨y, []⟩ y :=
  ⟨rfl, b, .rest b, h⟩

theorem mono (h : Watches w L R b x y) (hL : ∀ x, L x → L' x) (hR : ∀ y, R y → R' y) :
    Watches w L' R' b x y := by
  obtain ⟨last, htrail, hend⟩ := h.trail
  exact ⟨h.answer, last, htrail.mono hL hR, hend⟩

/-- A comparison that goes on from where another one has ended. -/
theorem next {f : Option Binding → Watched (Option Binding)}
    {g : Option Binding → Except Fault (Option Binding)} (h : Watches w L R b x y)
    (hf : f none = pure none) (hg : g none = pure none)
    (hnext : ∀ b', Watches w L R b' (f (some b')) (g (some b'))) :
    Watches w L R b (x >>= f) (y >>= g) := by
  obtain ⟨rfl, last, htrail, hend⟩ := h
  cases hanswer : x.answer with
  | error fault =>
      rw [Watched.bind_of_error hanswer]
      exact ⟨rfl, last, htrail, nofun⟩
  | ok found =>
      rw [Watched.bind_of_ok hanswer]
      cases found with
      | none =>
          rw [hf]
          refine ⟨hg.symm, last, by simpa [pure] using htrail, ?_⟩
          rintro b' h
          cases hg.symm.trans h
      | some b₁ =>
          obtain rfl := hend b₁ hanswer
          obtain ⟨hsame, last', htrail', hend'⟩ := hnext b₁
          exact ⟨hsame, last', htrail.append htrail', hend'⟩

/-- Noting what is bound at the end of a trail, after one more pair at most. -/
theorem noting {y : Except Fault (Option Binding)} (hanswer : x.answer = y)
    (htrail : Trail w L R b x.notes last)
    (hend : ∀ b', y = .ok (some b') → Binds w L R last b') :
    Watches w L R b (noting b x) y := by
  subst hanswer
  refine ⟨rfl, ?_⟩
  have hnotes : ∀ {ends : List Binding} {last'}, Trail w L R last ends last' →
      Trail w L R b (b :: (x.notes ++ ends)) last' :=
    fun hends => .step .nothing (htrail.append hends)
  unfold Equality.noting
  cases hx : x.answer with
  | error fault => exact ⟨last, hnotes (.rest last), nofun⟩
  | ok found =>
      cases found with
      | none => exact ⟨last, hnotes (.rest last), nofun⟩
      | some b' =>
          refine ⟨b', hnotes (.step (hend b' hx) (.rest b')), ?_⟩
          rintro _ ⟨⟩
          rfl

theorem noted (h : Watches w L R b x y) : Watches w L R b (Equality.noting b x) y := by
  obtain ⟨hanswer, last, htrail, hend⟩ := h
  exact .noting hanswer htrail fun b' hb' => hend b' hb' ▸ .nothing

/-- Two objects that are bound once their contents have been found equal.  What is bound on the way is
below them. -/
theorem noted_binding {c : Comparison Watched} {c' : Comparison (Except Fault)}
    (h : Watches w L R b (c b) (c' b)) (hl : ¬ L l) (hr : ¬ R r) (hfresh : Fresh w b l r)
    (hL : ∀ x, L x → L' x) (hR : ∀ y, R y → R' y) (hl' : L' l) (hr' : R' r) :
    Watches w L' R' b (Equality.noting b (binding l r c b)) (binding l r c' b) := by
  obtain ⟨hanswer, last, htrail, hend⟩ := h
  have hfresh' : Fresh w last l r := htrail.fresh hl hr hfresh
  have htrail' : Trail w L' R' b (binding l r c b).notes last := by
    rw [Watched.binding_notes]
    exact htrail.mono hL hR
  refine .noting ?_ htrail' fun b' hb' => ?_
  · rw [Watched.binding_answer]
    simp only [binding, hanswer]
  · obtain ⟨b₁, hfound, rfl⟩ := binding_inv (c := c') hb'
    obtain rfl := hend b₁ hfound
    exact .pair hl' hr' hfresh'

end Watches

namespace Tracks

theorem check (equal : Bool) :
    Tracks w L R (Equality.check equal) (Equality.check equal) :=
  fun _ => .still fun _ h => (check_inv h).2

theorem both {first second : Comparison Watched} {first' second' : Comparison (Except Fault)}
    (hfirst : Tracks w L R first first') (hsecond : Tracks w L R second second') :
    Tracks w L R (Equality.both first second) (Equality.both first' second') :=
  fun b => (hfirst b).next rfl rfl hsecond

theorem all {f : α → Comparison Watched} {f' : α → Comparison (Except Fault)} {as : List α}
    (h : ∀ a ∈ as, Tracks w L R (f a) (f' a)) :
    Tracks w L R (Equality.all f as) (Equality.all f' as) := by
  induction as with
  | nil => exact check true
  | cons a as ih =>
      obtain ⟨ha, has⟩ := List.forall_mem_cons.mp h
      exact both ha (ih has)

end Tracks

/-- Two objects in no cycle: what is bound is at or below them. -/
def TracksObjects (w : World κ) (objects : ObjId → ObjId → Bool → Comparison Watched)
    (objects' : ObjId → ObjId → Bool → Comparison (Except Fault)) : Prop :=
  ∀ l r d, w.AcyclicAt l → w.AcyclicAt r →
    Tracks w (ReflTransGen w.Refers l) (ReflTransGen w.Refers r) (objects l r d) (objects' l r d)

section Parts

variable {inner : Inner Watched} {inner' : Inner (Except Fault)}
  (hobjects : TracksObjects w inner.objects inner'.objects)
  (hl : w.AcyclicAt l) (hr : w.AcyclicAt r)

include hobjects hl hr

/-- Objects that two objects hold. -/
theorem tracks_held (hx : w.Refers l x) (hy : w.Refers r y) :
    Tracks w (TransGen w.Refers l) (TransGen w.Refers r) (inner.objects x y d)
      (inner'.objects x y d) :=
  fun b => (hobjects x y d (hl.step hx) (hr.step hy) b).mono (fun _ => .head' hx) fun _ => .head' hy

theorem tracks_refs {left right : Ref} (hleft : ∀ x, left = some x → w.Refers l x)
    (hright : ∀ y, right = some y → w.Refers r y) :
    Tracks w (TransGen w.Refers l) (TransGen w.Refers r) (inner.refs left right d)
      (inner'.refs left right d) := by
  cases left with
  | none => cases right <;> exact .check _
  | some x =>
      cases right with
      | none => exact .check false
      | some y => exact tracks_held hobjects hl hr (hleft x rfl) (hright y rfl)

theorem tracks_attr {pair : Attr × Attr} (hleft : pair.1 ∈ w.shown l)
    (hright : pair.2 ∈ w.shown r) :
    Tracks w (TransGen w.Refers l) (TransGen w.Refers r) (inner.attr pair) (inner'.attr pair) := by
  unfold Inner.attr Inner.values
  split_ifs
  · split
    · rename_i x y hx hy
      exact tracks_held hobjects hl hr (World.refers_of_attr hleft hx)
        (World.refers_of_attr hright hy)
    · exact .check _
    · exact .check false
  · exact .check false

/-- Attributes of two objects of one class. -/
theorem tracks_attrs {schema : Schema} (hschema : w.schemaOf? l = some schema)
    (hschema' : w.schemaOf? r = some schema) :
    Tracks w (TransGen w.Refers l) (TransGen w.Refers r) (inner.attrs w l r)
      (inner'.attrs w l r) := by
  rw [Watched.inner_attrs_eq inner hschema hschema',
    Inner.attrs_eq inner' (by simp [hschema]) (by simp [hschema'])]
  split_ifs
  · refine .all fun p hp => ?_
    obtain ⟨hleft, hright⟩ := List.of_mem_zip hp
    exact tracks_attr hobjects hl hr hleft hright
  · exact .check false

/-- An entry and the one that is found for it. -/
theorem tracks_entry {ls rs : List (Ref × Ref)} {e : Ref × Ref}
    (hls : w.payload? l = some (.map ls)) (hrs : w.payload? r = some (.map rs)) (he : e ∈ ls) :
    Tracks w (TransGen w.Refers l) (TransGen w.Refers r) (inner.entry w rs d e)
      (inner'.entry w rs d e) := by
  intro b
  rw [Inner.entry_eq inner (Watched.askKey_eq e.1), Inner.entry_eq inner' (Inner.askKey_eq e.1)]
  cases hfind : rs.find? fun e' => w.sameKey e'.1 (Inner.keyFor w e.1 b) with
  | none => exact .still nofun
  | some found =>
      exact tracks_refs hobjects hl hr (fun _ => World.refers_of_entry hls he)
        (fun _ => World.refers_of_entry hrs (List.mem_of_find?_eq_some hfind)) b

/-- Contents of two objects of a class that is not reflected. -/
theorem tracks_contents :
    Tracks w (TransGen w.Refers l) (TransGen w.Refers r) (inner.contents w l r d)
      (inner'.contents w l r d) := by
  unfold Inner.contents
  split
  · exact .check _
  · exact .check _
  · rename_i ls rs hls hrs
    split_ifs
    · refine .all fun p hp => ?_
      obtain ⟨hleft, hright⟩ := List.of_mem_zip hp
      exact tracks_refs hobjects hl hr (fun _ hx => World.refers_of_element hls (hx ▸ hleft))
        fun _ hy => World.refers_of_element hrs (hy ▸ hright)
    · exact .check false
  · rename_i ls rs hls hrs
    split_ifs
    · exact .all fun e he => tracks_entry hobjects hl hr hls hrs he
    · exact .check false
  · intro b
    cases tensorsEqual w l r with
    | error fault => exact .still nofun
    | ok equal => exact Tracks.check equal b
  · exact .check false

/-- Two objects of one reflected class. -/
theorem tracks_nodes (hmap : inner.map = inner'.map) {schema : Schema}
    (hschema : w.schemaOf? l = some schema) (hfresh : Fresh w b l r) :
    Watches w (ReflTransGen w.Refers l) (ReflTransGen w.Refers r) b
      (noting b (inner.nodes w schema.kind l r d b)) (inner'.nodes w schema.kind l r d b) := by
  have hschema' : w.schemaOf? r = some schema := by
    rw [World.schemaOf?, ← hfresh.typeIndex]
    exact hschema
  have hattrs := tracks_attrs hobjects hl hr hschema hschema' b
  have hbelow : ∀ {a c : ObjId}, TransGen w.Refers a c → ReflTransGen w.Refers a c :=
    TransGen.to_reflTransGen
  -- neither object is below itself, so what is bound on the way is not one of the two
  have hbinding := hattrs.noted_binding hl.not_below hr.not_below hfresh (fun _ => hbelow)
    (fun _ => hbelow) .refl .refl
  cases schema.kind with
  | graph => exact hbinding
  | tree =>
      unfold Inner.nodes
      dsimp only
      split_ifs
      · exact (Tracks.check true b).noted
      · exact (hattrs.mono (fun _ => hbelow) fun _ => hbelow).noted
  | «variable» =>
      unfold Inner.nodes
      rw [hmap]
      dsimp only
      split_ifs
      · exact (Tracks.check true b).noted
      · exact hbinding
      · exact (Tracks.check false b).noted

/-- Two objects, watched at this level. -/
theorem tracks_pair (hmap : inner.map = inner'.map) (d : Bool) :
    Tracks w (ReflTransGen w.Refers l) (ReflTransGen w.Refers r)
      (fun b => noting b (inner.pair w l r d b)) (inner'.pair w l r d) := by
  intro b
  cases hunbound : b.counterpart? l with
  | some counterpart =>
      simp only [Inner.pair, hunbound]
      exact (Tracks.check _ b).noted
  | none =>
      cases hbarred : (b.isTaken r || w.typeIndex l != w.typeIndex r) with
      | true =>
          simp only [Inner.pair, hunbound, hbarred, if_true]
          exact (Tracks.check false b).noted
      | false =>
          have hfresh : Fresh w b l r := by
            simp only [isTaken_eq, Bool.or_eq_false_iff, bne_eq_false_iff_eq,
              Option.isSome_eq_false_iff, Option.isNone_iff_eq_none] at hbarred
            exact ⟨hunbound, hbarred.1, hbarred.2⟩
          simp only [Inner.pair, hunbound, hbarred, Bool.false_eq_true, if_false]
          cases hschema : w.schemaOf? l with
          | some schema => exact tracks_nodes hobjects hl hr hmap hschema hfresh
          | none =>
              dsimp only
              split_ifs
              · exact (Tracks.check true b).noted
              · exact ((tracks_contents hobjects hl hr b).mono (fun _ => TransGen.to_reflTransGen)
                  fun _ => TransGen.to_reflTransGen).noted

end Parts

/-- Comparisons of any depth are watched without a change. -/
theorem watchedWithin_tracks (w : World κ) (mapFree : Bool) (depth : Nat) :
    TracksObjects w (watchedWithin w mapFree depth) (objectsWithin w mapFree depth) := by
  induction depth with
  | zero => exact fun _ _ _ _ _ _ => .still nofun
  | succ depth ih =>
      intro l r d hl hr
      rw [objectsWithin_succ]
      exact tracks_pair ih hl hr rfl d

variable {left right : Ref} {mapFree : Bool}

/-- A comparison of two graphs without cycles is watched without a change. -/
theorem watches_bindingOf (hleft : w.Acyclic left) (hright : w.Acyclic right) (mapFree : Bool) :
    Watches w (fun _ => True) (fun _ => True) [] (bindingWatched w mapFree left right)
      (bindingOf w mapFree left right) := by
  have hobjects := watchedWithin_tracks w mapFree (w.heap.cells.size + 1)
  cases left with
  | none => cases right <;> exact Tracks.check _ []
  | some l =>
      cases right with
      | none => exact Tracks.check false []
      | some r =>
          exact (hobjects l r false (hleft l rfl) (hright r rfl) []).mono (fun _ _ => trivial)
            fun _ _ => trivial

theorem watch_notes :
    (watch w left right mapFree).notes = (bindingWatched w mapFree left right).notes := by
  cases h : (bindingWatched w mapFree left right).answer <;> simp [watch, h, pure]

theorem watch_answer
    (hsame : (bindingWatched w mapFree left right).answer = bindingOf w mapFree left right) :
    (watch w left right mapFree).answer = structuralEqual w left right mapFree := by
  have hequal : structuralEqual w left right mapFree =
      (return (← bindingOf w mapFree left right).isSome : Except Fault Bool) := rfl
  rw [hequal, ← hsame]
  cases h : (bindingWatched w mapFree left right).answer with
  | error fault => simp [watch, h, Bind.bind, Except.bind]
  | ok found => simp [watch, h, Bind.bind, Except.bind, pure, Except.pure]

end Equality

open Equality Equality.Binding World

variable {κ : Type} {w : World κ} {left right : Ref}

/-- The bindings of a comparison stay inverse to each other.  Whatever is bound while two graphs without
cycles are compared, the two maps are inverse and lead from objects to objects of the same type; what
is noted starts with nothing, goes on by single pairs of which neither object is bound, and ends with
what is bound in the end. -/
theorem bindings_stay_inverse (hleft : w.Acyclic left) (hright : w.Acyclic right)
    (mapFree : Bool) :
    (watch w left right mapFree).answer = structuralEqual w left right mapFree ∧
    ([] :: (watch w left right mapFree).notes).IsChain (fun b b' : Binding => b' = b ∨
      ∃ x y, b' = (x, y) :: b ∧ b.counterpart? x = none ∧ b.original? y = none) ∧
    (∀ b, bindingOf w mapFree left right = (.ok (some b) : Except Fault _) →
      (watch w left right mapFree).notes.getLast?.getD [] = b) ∧
    ∀ b ∈ [] :: (watch w left right mapFree).notes, Inverse w b := by
  obtain ⟨hanswer, last, htrail, hend⟩ := watches_bindingOf hleft hright mapFree
  rw [watch_notes]
  refine ⟨watch_answer hanswer, htrail.isChain.imp fun b b' h => ?_, fun b hb => ?_,
    List.forall_mem_cons.mpr ⟨.nil w, htrail.inverse (.nil w)⟩⟩
  · cases h with
    | nothing => exact .inl rfl
    | pair _ _ hfresh => exact .inr ⟨_, _, rfl, hfresh.left, hfresh.right⟩
  · rw [htrail.getLast, hend b hb]

/-- While `f(x) = [x]` and `g(y) = [y]` are compared, `x` and `y` get bound to each other. -/
theorem bindings_stay_inverse_renamedParameter :
    [(⟨0⟩, ⟨1⟩)] ∈ (watch renamedParameter (some ⟨6⟩) (some ⟨7⟩) false).notes ∧
      Inverse renamedParameter [(⟨0⟩, ⟨1⟩)] := by
  have hl : renamedParameter.Acyclic (some ⟨6⟩) := fun a _ => acyclicAt_of_isOrdered rfl a
  have hr : renamedParameter.Acyclic (some ⟨7⟩) := fun a _ => acyclicAt_of_isOrdered rfl a
  have hmem : [(⟨0⟩, ⟨1⟩)] ∈ (watch renamedParameter (some ⟨6⟩) (some ⟨7⟩) false).notes := by
    decide
  obtain ⟨-, -, -, hinverse⟩ := bindings_stay_inverse hl hr false
  exact ⟨hmem, hinverse _ (List.mem_cons_of_mem _ hmem)⟩

end ObjectRuntime
