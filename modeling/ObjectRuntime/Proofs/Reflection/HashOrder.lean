import ObjectRuntime.Proofs.Reflection.Relisting
set_option autoImplicit false

/-!
# Hashes of maps in any order

The hash of a map adds up those of its entries, but each of these is found after the entries before
it have been met.  Hashes of inert objects are `Steady`: they do not depend on what is remembered, and
nothing is remembered of them.  A sum of hashes of which all but one are steady is the same in every
order (`sum_perm`), so a traversal finds the same hash in a world that lists the entries of such maps
in another order (`Concurs`).
-/

namespace ObjectRuntime

open World (Inert InertEntry OrderFree Readable Relisting)

namespace Hashing

variable {κ α β : Type} {w w' : World κ} {x : ObjId} {d mapFree : Bool} {n : Nat} {m m₁ : Memory}
  {hash : UInt64}

/-- Adds up hashes, as those of the entries of a map are. -/
def sumFrom (f : α → Hashed (Except Fault)) (as : List α) (sum : UInt64) : Hashed (Except Fault) :=
  as.foldlM (fun sum a => do return sum + (← f a)) sum

/-! ## Walks through the parts of a traversal -/

/-- A relation between parts of traversals that sequences of them keep. -/
structure Congruence (P : Hashed (Except Fault) → Hashed (Except Fault) → Prop) : Prop where
  pure : ∀ hash, P (pure hash) (pure hash)
  bind : ∀ {c c' : Hashed (Except Fault)} {f f' : UInt64 → Hashed (Except Fault)}, P c c' →
    (∀ hash, P (f hash) (f' hash)) → P (c >>= f) (c' >>= f')

namespace Congruence

variable {P : Hashed (Except Fault) → Hashed (Except Fault) → Prop} (hP : Congruence P)
include hP

theorem fold (f f' : UInt64 → α → Hashed (Except Fault)) {as : List α}
    (h : ∀ a ∈ as, ∀ hash, P (f hash a) (f' hash a)) (hash : UInt64) :
    P (as.foldlM f hash) (as.foldlM f' hash) := by
  induction as generalizing hash with
  | nil => exact hP.pure hash
  | cons a as ih =>
      exact hP.bind (h a List.mem_cons_self hash) fun hash =>
        ih (fun a' ha' => h a' (List.mem_cons_of_mem _ ha')) hash

theorem map {c c' : Hashed (Except Fault)} (h : P c c') (f : UInt64 → UInt64) :
    P (do return f (← c)) (do return f (← c')) :=
  hP.bind h fun hash => hP.pure (f hash)

theorem sum (f f' : α → Hashed (Except Fault)) {as : List α} (h : ∀ a ∈ as, P (f a) (f' a))
    (sum : UInt64) : P (sumFrom f as sum) (sumFrom f' as sum) :=
  hP.fold _ _ (fun a ha _ => hP.map (h a ha) _) sum

variable (inner inner' : Inner (Except Fault))

theorem ref {r : Ref} (h : ∀ a, r = some a → P (inner a d) (inner' a d)) :
    P (inner.ref r d) (inner'.ref r d) := by
  cases r with
  | none => exact hP.pure 0
  | some a => exact h a rfl

theorem attr {a : Attr} (h : ∀ id, a.value.object? = some id →
      P (inner id a.isDefinition) (inner' id a.isDefinition)) (hash : UInt64) :
    P (inner.attr hash a) (inner'.attr hash a) := by
  have hvalue : P (inner.value a.value a.isDefinition) (inner'.value a.value a.isDefinition) := by
    unfold Inner.value
    cases hv : a.value.object? with
    | none => exact hP.pure _
    | some id => exact h id hv
  exact hP.map hvalue _

theorem entry {e : Ref × Ref} (h : ∀ a d, e.1 = some a ∨ e.2 = some a → P (inner a d) (inner' a d)) :
    P (inner.entry d e) (inner'.entry d e) :=
  hP.bind (hP.ref inner inner' fun a ha => h a false (.inl ha)) fun _ =>
    hP.map (hP.ref inner inner' fun a ha => h a d (.inr ha)) _

variable (hlist : Relisting w w') (h : ∀ a d, w.Meets x a → P (inner a d) (inner' a d))
include hlist h

theorem attrs (hx : w.schemaOf? x ≠ none) (hash : UInt64) :
    P (inner.attrs w hash x) (inner'.attrs w' hash x) := by
  obtain ⟨schema, hschema⟩ := Option.ne_none_iff_exists'.mp hx
  simp only [Inner.attrs, attrs_eq_pure, hlist.attrs, World.attrs_eq_shown hschema, pure_bind]
  exact hP.fold _ _ (fun a ha => hP.attr inner inner' fun id hid =>
    h id _ (World.meets_of_attr ha hid)) hash

theorem content (hx : w.schemaOf? x = none)
    (htensor : ∀ t, w.tensor? x = some t → ∃ data, w.tensorBytes x t = .ok data)
    (hmaps : ∀ es es', w.payload? x = some (.map es) → w'.payload? x = some (.map es') →
      P (sumFrom (inner.entry d) es 0) (sumFrom (inner'.entry d) es' 0)) (hash : UInt64) :
    P (inner.content w hash x d) (inner'.content w' hash x d) := by
  rw [Inner.content]
  split
  · rename_i s hs
    simp only [Inner.content, hlist.keeps hs (by simp)]
    exact hP.pure _
  · rename_i dims hdims
    simp only [Inner.content, hlist.keeps hdims (by simp)]
    exact hP.pure _
  · rename_i elems helems
    simp only [Inner.content, hlist.keeps helems (by simp)]
    refine hP.fold _ _ (fun r hr hash => hP.map (hP.ref inner inner' fun a ha => ?_) _) _
    exact h a d (World.meets_of_element hx helems (ha ▸ hr))
  · rename_i es hes
    obtain ⟨es', hes', hperm, -⟩ := hlist.entries hes
    simp only [Inner.content, hes', ← hperm.length_eq]
    exact hP.map (hmaps es es' hes hes') _
  · rename_i t ht
    obtain ⟨data, hdata⟩ := htensor t (by simp [World.tensor?, ht])
    have hdata' := (hlist.tensorBytes x t).trans hdata
    simp only [Inner.content, hlist.keeps ht (by simp), ofTensor, hdata, hdata']
    exact hP.pure _
  · rename_i htext hshape harray hmap htensor
    have hother : inner'.content w' hash x d = Pure.pure (combine hash (ofPlace x)) := by
      rw [Inner.content]
      split
      · rename_i s hs
        exact (htext s (hlist.reflects hs (by simp))).elim
      · rename_i dims hdims
        exact (hshape dims (hlist.reflects hdims (by simp))).elim
      · rename_i elems helems
        exact (harray elems (hlist.reflects helems (by simp))).elim
      · rename_i es' hes'
        obtain ⟨es, hes⟩ := hlist.isMap hes'
        exact (hmap es hes).elim
      · rename_i t ht
        exact (htensor t (hlist.reflects ht (by simp))).elim
      · rfl
    rw [hother]
    exact hP.pure _

end Congruence

/-! ## What does not depend on what is remembered -/

/-- Only hashes of objects that can be bound are remembered. -/
def Memory.OnlyBindable (w : World κ) (m : Memory) : Prop :=
  ∀ p ∈ m.found, w.isBindable p.1 = true

/-- The hash is the same whatever is remembered, and nothing is remembered of it. -/
def Steady (w : World κ) (c : Hashed (Except Fault)) : Prop :=
  ∃ hash, ∀ m : Memory, m.OnlyBindable w → c m = .ok (hash, m)

/-- A hash is found, and nothing is remembered that cannot be bound. -/
def Answers (w : World κ) (c : Hashed (Except Fault)) : Prop :=
  ∀ m : Memory, m.OnlyBindable w → ∃ hash m₁, c m = .ok (hash, m₁) ∧ m₁.OnlyBindable w

/-- Both find the same hash and remember the same. -/
def Concurs (w : World κ) (c c' : Hashed (Except Fault)) : Prop :=
  Answers w c ∧ ∀ m : Memory, m.OnlyBindable w → c' m = c m

theorem Memory.OnlyBindable.lookup (hm : m.OnlyBindable w) (hx : w.isBindable x = false) :
    m.found.lookup x = none := by
  cases hknown : m.found.lookup x with
  | none => rfl
  | some hash =>
      have hbindable := hm _ (mem_of_lookup hknown)
      rw [hx] at hbindable
      cases hbindable

theorem steady_congruence (w : World κ) : Congruence fun c _ => Steady w c where
  pure hash := ⟨hash, fun _ _ => rfl⟩
  bind := by
    rintro c - f - ⟨hash, hc⟩ hf
    obtain ⟨hash', hf⟩ := hf hash
    exact ⟨hash', fun m hm => (bind_run (hc m hm)).trans (hf m hm)⟩

theorem concurs_congruence (w : World κ) : Congruence (Concurs w) where
  pure hash := ⟨fun m hm => ⟨hash, m, rfl, hm⟩, fun _ _ => rfl⟩
  bind := by
    rintro c c' f f' ⟨hc, hc'⟩ hf
    refine ⟨fun m hm => ?_, fun m hm => ?_⟩
    all_goals obtain ⟨hash, m₁, hrun, hm₁⟩ := hc m hm
    · exact bind_run (f := f) hrun ▸ (hf hash).1 m₁ hm₁
    · rw [bind_run hrun, bind_run ((hc' m hm).trans hrun)]
      exact (hf hash).2 m₁ hm₁

theorem Concurs.of_each {c c' : Hashed (Except Fault)}
    (h : ∀ m : Memory, m.OnlyBindable w → ∃ f f', Concurs w f f' ∧ c m = f m ∧ c' m = f' m) :
    Concurs w c c' := by
  refine ⟨fun m hm => ?_, fun m hm => ?_⟩
  all_goals obtain ⟨f, f', hconcurs, hf, hf'⟩ := h m hm
  · exact hf ▸ hconcurs.1 m hm
  · rw [hf, hf', hconcurs.2 m hm]

/-- A sum of hashes of which all but one are steady is the same in any order. -/
theorem sum_perm {f : α → Hashed (Except Fault)} {as as' : List α} (hperm : as.Perm as')
    (hinert : as.Pairwise fun a a' => Steady w (f a) ∨ Steady w (f a'))
    (hanswers : ∀ a ∈ as, Answers w (f a)) (hm : m.OnlyBindable w) (sum : UInt64) :
    sumFrom f as sum m = sumFrom f as' sum m := by
  induction hperm generalizing m sum with
  | nil => rfl
  | cons a _ ih =>
      obtain ⟨hash, m₁, hrun, hm₁⟩ := hanswers a List.mem_cons_self m hm
      simp only [sumFrom, List.foldlM_cons, bind_assoc, pure_bind, bind_run hrun]
      exact ih (List.pairwise_cons.mp hinert).2
        (fun a' ha' => hanswers a' (List.mem_cons_of_mem _ ha')) hm₁ _
  | swap a a' as =>
      obtain ⟨hash, m₁, hrun, hm₁⟩ := hanswers a (by simp) m hm
      obtain ⟨hash', m₁', hrun', hm₁'⟩ := hanswers a' (by simp) m hm
      rcases (List.pairwise_cons.mp hinert).1 a List.mem_cons_self with ⟨hash₂, hs⟩ | ⟨hash₂, hs⟩
      · cases (hs m hm).symm.trans hrun'
        simp only [sumFrom, List.foldlM_cons, bind_assoc, pure_bind, bind_run hrun', bind_run hrun,
          bind_run (hs m₁ hm₁)]
        rw [add_right_comm]
      · cases (hs m hm).symm.trans hrun
        simp only [sumFrom, List.foldlM_cons, bind_assoc, pure_bind, bind_run hrun', bind_run hrun,
          bind_run (hs m₁' hm₁')]
        rw [add_right_comm]
  | trans hperm _ ih ih' =>
      rw [ih hinert hanswers hm]
      exact ih' ((hperm.pairwise_iff fun {_ _} hor => hor.symm).mp hinert)
        (fun a ha => hanswers a (hperm.mem_iff.mpr ha)) hm sum

/-! ## Objects -/

/-- The hash of an inert object is steady. -/
theorem steady_objectWithin (n : Nat) : ∀ x d, w.NestedWithin n x → w.Inert (some x) →
    w.Readable (some x) → Steady w (objectWithin w mapFree n x d) := by
  induction n with
  | zero => exact fun _ _ hnested => hnested.elim
  | succ n ih =>
      intro x d hnested hinert hx
      have hP := steady_congruence w
      let inner : Inner (Except Fault) := objectWithin w mapFree n
      have hbelow : ∀ a d, w.Meets x a → Steady w (inner a d) := fun a d ha =>
        ih a d (hnested a (World.refers_of_meets ha)) (hinert.step ha) (hx.step ha)
      have hhash : ∀ m : Memory, m.OnlyBindable w →
          (objectWithin w mapFree (n + 1) : Inner (Except Fault)) x d m = _ := fun m hm =>
        objectWithin_of_unknown (hm.lookup hinert.root)
      cases hschema : w.schemaOf? x with
      | some schema =>
          have htree : schema.kind = .tree := by
            have hkind := hinert.root
            simpa [World.isBindable, hschema] using hkind
          obtain ⟨hash, hattrs⟩ := hP.attrs inner inner (.refl w) hbelow (by simp [hschema])
            ((w.types.hashOf (w.typeIndex x)).toOption.getD 0)
          refine ⟨hash, fun m hm => (hhash m hm).trans ?_⟩
          rw [hschema]
          simp only [htree]
          exact hattrs m hm
      | none =>
          have hmaps : ∀ es, w.payload? x = some (.map es) →
              Steady w (sumFrom (Inner.entry inner d) es 0) := fun es hes =>
            hP.sum _ (Inner.entry inner d) (fun e he => hP.entry inner inner fun a d ha =>
              hbelow a d (World.meets_of_entry hschema hes he ha)) 0
          obtain ⟨hash, hcontent⟩ := hP.content inner inner (.refl w) hbelow hschema
            (fun _ => hx.tensors (.root x)) (fun es _ hes _ => hmaps es hes)
            ((w.types.hashOf (w.typeIndex x)).toOption.getD 0)
          refine ⟨hash, fun m hm => (hhash m hm).trans ?_⟩
          rw [hschema]
          exact hcontent m hm

/-- A graph node is remembered once it has been hashed. -/
theorem Concurs.graphNode {inner inner' : Inner (Except Fault)}
    (h : Concurs w (inner.attrs w hash x) (inner'.attrs w' hash x)) (hx : w.isBindable x = true) :
    Concurs w (inner.node w mapFree .graph hash x d) (inner'.node w' mapFree .graph hash x d) :=
  (concurs_congruence w).bind h fun found =>
    ⟨fun _ hm => ⟨found, _, rfl, List.forall_mem_cons.mpr ⟨hx, hm⟩⟩, fun _ _ => rfl⟩

/-- A variable is hashed in both worlds by its number or by its place. -/
theorem Concurs.variable (inner inner' : Inner (Except Fault)) (hx : w.isBindable x = true) :
    Concurs w (inner.node w mapFree .variable hash x d)
      (inner'.node w' mapFree .variable hash x d) := by
  refine ⟨fun m hm => ?_, fun m hm => rfl⟩
  by_cases hmapped : (mapFree || d) = true
  · exact ⟨_, _, node_of_mapped hmapped, List.forall_mem_cons.mpr ⟨hx, hm⟩⟩
  · simp only [Inner.node, if_neg hmapped]
    exact ⟨_, m, rfl, hm⟩

section Parts

variable (inner inner' : Inner (Except Fault)) (hlist : Relisting w w')
  (h : ∀ a d, w.Meets x a → Concurs w (inner a d) (inner' a d))
include hlist h

theorem concurs_node {schema : Schema} (hx : w.schemaOf? x = some schema) (hash : UInt64) :
    Concurs w (inner.node w mapFree schema.kind hash x d)
      (inner'.node w' mapFree schema.kind hash x d) := by
  have hattrs := (concurs_congruence w).attrs inner inner' hlist h (by simp [hx]) hash
  have hbindable : schema.kind ≠ .tree → w.isBindable x = true :=
    fun hkind => by simp [World.isBindable, hx, hkind]
  cases hkind : schema.kind with
  | tree => exact hattrs
  | graph => exact hattrs.graphNode (hbindable (by simp [hkind]))
  | «variable» => exact .variable inner inner' (hbindable (by simp [hkind]))

theorem concurs_entries {es es' : List (Ref × Ref)} (hx : w.schemaOf? x = none)
    (hsteady : ∀ a d, w.Meets x a → w.Inert (some a) → Steady w (inner a d))
    (hes : w.payload? x = some (.map es)) (hes' : w'.payload? x = some (.map es')) :
    Concurs w (sumFrom (inner.entry d) es 0) (sumFrom (inner'.entry d) es' 0) := by
  have hP := concurs_congruence w
  obtain ⟨_, heq, hperm, hfree⟩ := hlist.entries hes
  cases heq.symm.trans hes'
  have hentry : ∀ e ∈ es, Concurs w (inner.entry d e) (inner'.entry d e) := fun e he =>
    hP.entry inner inner' fun a d ha => h a d (World.meets_of_entry hx hes he ha)
  have hinert : ∀ e ∈ es, w.InertEntry e → Steady w (inner.entry d e) := fun e he hinert =>
    (steady_congruence w).entry inner inner fun a d ha =>
      hsteady a d (World.meets_of_entry hx hes he ha)
        (ha.elim (fun ha => ha ▸ hinert.1) fun ha => ha ▸ hinert.2)
  have horder : ∀ m : Memory, m.OnlyBindable w →
      sumFrom (inner.entry d) es' 0 m = sumFrom (inner.entry d) es 0 m := by
    intro m hm
    rcases hfree with rfl | hfree
    · rfl
    · exact (sum_perm hperm (hfree.imp_of_mem fun he he' hor =>
        hor.imp (hinert _ he) (hinert _ he')) (fun e he => (hentry e he).1) hm 0).symm
  have hall : Concurs w (sumFrom (inner.entry d) es' 0) (sumFrom (inner'.entry d) es' 0) :=
    hP.sum _ _ (fun e he => hentry e (hperm.mem_iff.mpr he)) 0
  exact ⟨(hP.sum _ _ hentry 0).1, fun m hm => (hall.2 m hm).trans (horder m hm)⟩

end Parts

/-- The hash of an object is the same in both worlds. -/
theorem concurs_objectWithin (hlist : Relisting w w') (n : Nat) :
    ∀ x d, w.NestedWithin n x → w.Readable (some x) →
      Concurs w (objectWithin w mapFree n x d) (objectWithin w' mapFree n x d) := by
  induction n with
  | zero => exact fun _ _ hnested => hnested.elim
  | succ n ih =>
      intro x d hnested hx
      have hP := concurs_congruence w
      refine .of_each fun m hm => ?_
      cases hknown : m.found.lookup x with
      | some hash =>
          exact ⟨_, _, hP.pure hash, objectWithin_of_known hknown, objectWithin_of_known hknown⟩
      | none =>
          let inner : Inner (Except Fault) := objectWithin w mapFree n
          let inner' : Inner (Except Fault) := objectWithin w' mapFree n
          have hhash : (objectWithin w mapFree (n + 1) : Inner (Except Fault)) x d m = _ :=
            objectWithin_of_unknown hknown
          have hhash' : (objectWithin w' mapFree (n + 1) : Inner (Except Fault)) x d m = _ :=
            objectWithin_of_unknown hknown
          rw [hlist.schemaOf?, hlist.typeIndex, hlist.classes.types] at hhash'
          have hbelow : ∀ a d, w.Meets x a → Concurs w (inner a d) (inner' a d) := fun a d ha =>
            ih a d (hnested a (World.refers_of_meets ha)) (hx.step ha)
          have hsteady : ∀ a d, w.Meets x a → w.Inert (some a) → Steady w (inner a d) :=
            fun a d ha hinert =>
              steady_objectWithin n a d (hnested a (World.refers_of_meets ha)) hinert (hx.step ha)
          cases hschema : w.schemaOf? x with
          | some schema =>
              rw [hschema] at hhash hhash'
              exact ⟨_, _, concurs_node inner inner' hlist hbelow hschema _, hhash, hhash'⟩
          | none =>
              rw [hschema] at hhash hhash'
              have hcontent := hP.content (d := d) inner inner' hlist hbelow hschema
                (fun _ => hx.tensors (.root x)) (fun _ _ hes hes' =>
                  concurs_entries inner inner' hlist hbelow hschema hsteady hes hes')
                ((w.types.hashOf (w.typeIndex x)).toOption.getD 0)
              exact ⟨_, _, hcontent, hhash, hhash'⟩

end Hashing

section

variable {κ : Type} {w w' : World κ} {g : Ref} {mapFree : Bool}

/-- A graph has the same hash in whatever order maps list their entries. -/
theorem structuralHash_of_relisting (hlist : Relisting w w') (hg : w.Readable g) :
    ∃ hash, structuralHash w g mapFree = .ok hash ∧ structuralHash w' g mapFree = .ok hash := by
  let inner : Hashing.Inner (Except Fault) :=
    Hashing.objectWithin w mapFree (w.heap.cells.size + 1)
  let inner' : Hashing.Inner (Except Fault) :=
    Hashing.objectWithin w' mapFree (w.heap.cells.size + 1)
  have href : Hashing.Concurs w (inner.ref g false) (inner'.ref g false) :=
    (Hashing.concurs_congruence w).ref inner inner' fun a ha =>
      Hashing.concurs_objectWithin hlist _ a false (hg.acyclic a ha).nestedWithin (ha ▸ hg)
  have hnil : Hashing.Memory.OnlyBindable w ⟨[], 0⟩ := List.forall_mem_nil _
  obtain ⟨hash, m, hrun, -⟩ := href.1 _ hnil
  have hrun' := (href.2 _ hnil).trans hrun
  refine ⟨hash, bind_eq_ok.mpr ⟨_, hrun, rfl⟩, bind_eq_ok.mpr ⟨(hash, m), ?_, rfl⟩⟩
  rwa [hlist.size]

end

end ObjectRuntime
