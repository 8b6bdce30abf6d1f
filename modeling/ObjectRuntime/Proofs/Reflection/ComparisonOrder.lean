import ObjectRuntime.Proofs.Reflection.Relisting
set_option autoImplicit false

/-!
# Comparisons of maps in any order

A comparison with an inert object is `Steady`: it finds a difference or none whatever is bound, and
binds nothing.  Comparisons of which all but one are steady can be made in any order (`all_perm`), so
a comparison comes to the same end in a world that lists the entries of such maps in another order
(`Concurs`).

Both facts are relations between comparisons that every sequence of comparisons keeps, so one walk
through the parts of an object serves for both (`Congruence`).
-/

namespace ObjectRuntime

open World (Inert InertEntry OrderFree Readable Relisting)

namespace Equality

variable {κ α : Type} {w w' : World κ} {b b' : Binding} {l r : ObjId} {d mapFree : Bool} {n : Nat}
  {inner inner' : Inner (Except Fault)}

/-! ## Walks through the parts of a comparison -/

/-- A relation between comparisons that sequences of them keep. -/
structure Congruence
    (P : Comparison (Except Fault) → Comparison (Except Fault) → Prop) : Prop where
  check : ∀ equal, P (check equal) (check equal)
  both : ∀ {f f' s s'}, P f f' → P s s' → P (both f s) (both f' s')

namespace Congruence

variable {P : Comparison (Except Fault) → Comparison (Except Fault) → Prop} (hP : Congruence P)
include hP

theorem all (f f' : α → Comparison (Except Fault)) {as : List α}
    (h : ∀ a ∈ as, P (f a) (f' a)) : P (all f as) (all f' as) := by
  induction as with
  | nil => exact hP.check true
  | cons a as ih =>
      exact hP.both (h a List.mem_cons_self) (ih fun a' ha' => h a' (List.mem_cons_of_mem _ ha'))

variable (inner inner' : Inner (Except Fault))

theorem refs {left right : Ref} (h : ∀ a a', left = some a → right = some a' →
      P (inner.objects a a' d) (inner'.objects a a' d)) :
    P (inner.refs left right d) (inner'.refs left right d) := by
  cases left with
  | none => cases right <;> exact hP.check _
  | some a =>
      cases right with
      | none => exact hP.check false
      | some a' => exact h a a' rfl rfl

theorem attr {pair : Attr × Attr}
    (h : ∀ a a', pair.1.value.object? = some a → pair.2.value.object? = some a' →
      P (inner.objects a a' pair.1.isDefinition) (inner'.objects a a' pair.1.isDefinition)) :
    P (inner.attr pair) (inner'.attr pair) := by
  unfold Inner.attr Inner.values
  split_ifs
  · cases hv : pair.1.value.object? with
    | none => cases hv' : pair.2.value.object? <;> exact hP.check _
    | some a =>
        cases hv' : pair.2.value.object? with
        | none => exact hP.check false
        | some a' => exact h a a' hv hv'
  · exact hP.check false

variable (hlist : Relisting w w')
include hlist

theorem attrs (hl : w.schemaOf? l ≠ none) (hr : w.schemaOf? r ≠ none)
    (h : ∀ a a' d, w.Meets l a → w.Meets r a' → P (inner.objects a a' d) (inner'.objects a a' d)) :
    P (inner.attrs w l r) (inner'.attrs w' l r) := by
  rw [Inner.attrs_eq inner hl hr, Inner.attrs_eq inner' (hlist.schemaOf? l ▸ hl)
    (hlist.schemaOf? r ▸ hr), hlist.shown, hlist.shown]
  split_ifs
  · refine hP.all _ _ fun pair hpair => hP.attr inner inner' fun a a' ha ha' => ?_
    obtain ⟨hleft, hright⟩ := List.of_mem_zip hpair
    exact h a a' _ (World.meets_of_attr hleft ha) (World.meets_of_attr hright ha')
  · exact hP.check false

theorem contents (hl : w.schemaOf? l = none) (hr : w.schemaOf? r = none)
    (htensors : ∀ s t, w.tensor? l = some s → w.tensor? r = some t →
      ∃ equal, tensorsEqual w l r = .ok equal)
    (h : ∀ a a', w.Meets l a → w.Meets r a' → P (inner.objects a a' d) (inner'.objects a a' d))
    (hmaps : ∀ ls rs ls' rs', w.payload? l = some (.map ls) → w.payload? r = some (.map rs) →
      w'.payload? l = some (.map ls') → w'.payload? r = some (.map rs') →
      P (Equality.all (inner.entry w rs d) ls) (Equality.all (inner'.entry w' rs' d) ls')) :
    P (inner.contents w l r d) (inner'.contents w' l r d) := by
  rw [Inner.contents]
  split
  · rename_i s t hs ht
    have hs' := hlist.keeps hs (by simp)
    have ht' := hlist.keeps ht (by simp)
    simp only [Inner.contents, hs', ht']
    exact hP.check _
  · rename_i s t hs ht
    have hs' := hlist.keeps hs (by simp)
    have ht' := hlist.keeps ht (by simp)
    simp only [Inner.contents, hs', ht']
    exact hP.check _
  · rename_i ls rs hls hrs
    have hls' := hlist.keeps hls (by simp)
    have hrs' := hlist.keeps hrs (by simp)
    simp only [Inner.contents, hls', hrs']
    split_ifs
    · refine hP.all _ _ fun p hp => hP.refs inner inner' fun a a' ha ha' => ?_
      obtain ⟨hleft, hright⟩ := List.of_mem_zip hp
      exact h a a' (World.meets_of_element hl hls (ha ▸ hleft))
        (World.meets_of_element hr hrs (ha' ▸ hright))
    · exact hP.check false
  · rename_i ls rs hls hrs
    obtain ⟨ls', hls', hleft, -⟩ := hlist.entries hls
    obtain ⟨rs', hrs', hright, -⟩ := hlist.entries hrs
    simp only [Inner.contents, hls', hrs', ← hleft.length_eq, ← hright.length_eq]
    split_ifs
    · exact hmaps ls rs ls' rs' hls hrs hls' hrs'
    · exact hP.check false
  · rename_i s t hs ht
    obtain ⟨equal, hequal⟩ := htensors s t (by simp [World.tensor?, hs]) (by simp [World.tensor?, ht])
    have hs' := hlist.keeps hs (by simp)
    have ht' := hlist.keeps ht (by simp)
    simp only [Inner.contents, hs', ht', hlist.tensorsEqual, hequal]
    exact hP.check equal
  · rename_i htext hshape harray hmap htensor
    have hfalse : inner'.contents w' l r d = Equality.check false := by
      rw [Inner.contents]
      split
      · rename_i s t hs ht
        exact (htext s t (hlist.reflects hs (by simp))
          (hlist.reflects ht (by simp))).elim
      · rename_i s t hs ht
        exact (hshape s t (hlist.reflects hs (by simp))
          (hlist.reflects ht (by simp))).elim
      · rename_i s t hs ht
        exact (harray s t (hlist.reflects hs (by simp))
          (hlist.reflects ht (by simp))).elim
      · rename_i s t hs ht
        obtain ⟨ls, hls⟩ := hlist.isMap hs
        obtain ⟨rs, hrs⟩ := hlist.isMap ht
        exact (hmap ls rs hls hrs).elim
      · rename_i s t hs ht
        exact (htensor s t (hlist.reflects hs (by simp))
          (hlist.reflects ht (by simp))).elim
      · rfl
    rw [hfalse]
    exact hP.check false

end Congruence

/-! ## What does not depend on what is bound -/

/-- Tensors that can be read can be compared. -/
theorem tensorsEqual_answers {s t : Tensor} (hl : w.Readable (some l)) (hr : w.Readable (some r))
    (hs : w.tensor? l = some s) (ht : w.tensor? r = some t) :
    ∃ equal, tensorsEqual w l r = .ok equal := by
  obtain ⟨data, hdata⟩ := hl.tensors (.root l) hs
  obtain ⟨data', hdata'⟩ := hr.tensors (.root r) ht
  by_cases hsame : s.dtype = t.dtype ∧ s.shape = t.shape
  · refine ⟨data == data', ?_⟩
    simp [tensorsEqual, hs, ht, hsame, hdata, hdata', bind, Except.bind, pure, Except.pure]
  · exact ⟨false, by simp only [tensorsEqual, hs, ht, if_neg hsame]⟩

/-- Only objects that can be bound are. -/
def OnlyBindable (w : World κ) (b : Binding) : Prop :=
  ∀ p ∈ b, w.isBindable p.1 = true ∧ w.isBindable p.2 = true

/-- The comparison has one outcome whatever is bound, and binds nothing. -/
def Steady (w : World κ) (c : Comparison (Except Fault)) : Prop :=
  ∃ equal, ∀ b, OnlyBindable w b → c b = check equal b

namespace OnlyBindable

theorem nil (w : World κ) : OnlyBindable w [] := List.forall_mem_nil _

theorem counterpart? (hb : OnlyBindable w b) (hl : w.isBindable l = false) :
    b.counterpart? l = none := by
  cases hbound : b.counterpart? l with
  | none => rfl
  | some c =>
      have hbindable := (hb _ (mem_of_lookup hbound)).1
      rw [hl] at hbindable
      cases hbindable

theorem isTaken (hb : OnlyBindable w b) (hr : w.isBindable r = false) : b.isTaken r = false := by
  refine List.any_eq_false.mpr fun p hp heq => ?_
  obtain rfl : p.2 = r := by simpa using heq
  have hbindable := (hb p hp).2
  rw [hr] at hbindable
  cases hbindable

/-- A key that cannot be bound corresponds to itself. -/
theorem keyFor (hb : OnlyBindable w b) {key : Ref}
    (hkey : ∀ k, key = some k → w.isBindable k = false) : Inner.keyFor w key b = key := by
  cases key with
  | none => rfl
  | some k => simp [Inner.keyFor, hb.counterpart? (hkey k rfl)]

end OnlyBindable

theorem steady_congruence (w : World κ) : Congruence fun c _ => Steady w c where
  check equal := ⟨equal, fun _ _ => rfl⟩
  both := by
    rintro f - s - ⟨first, hfirst⟩ ⟨second, hsecond⟩
    refine ⟨first && second, fun b hb => ?_⟩
    simp only [both, hfirst b hb]
    cases first with
    | false => rfl
    | true => exact hsecond b hb

theorem Steady.congr {c c' : Comparison (Except Fault)} (h : Steady w c)
    (heq : ∀ b, OnlyBindable w b → c' b = c b) : Steady w c' := by
  obtain ⟨equal, hequal⟩ := h
  exact ⟨equal, fun b hb => (heq b hb).trans (hequal b hb)⟩

theorem Steady.entry {rs : List (Ref × Ref)} {e : Ref × Ref}
    (hkey : ∀ k, e.1 = some k → w.isBindable k = false)
    (hvalue : ∀ e' ∈ rs, Steady w (inner.refs e.2 e'.2 d)) : Steady w (inner.entry w rs d e) := by
  cases hfind : rs.find? (fun p => w.sameKey p.1 e.1) with
  | none =>
      refine ⟨false, fun b hb => Inner.entry_of_not_found ?_⟩
      rwa [hb.keyFor hkey]
  | some e' =>
      obtain ⟨equal, hequal⟩ := hvalue e' (List.mem_of_find?_eq_some hfind)
      refine ⟨equal, fun b hb => (Inner.entry_of_find? ?_).trans (hequal b hb)⟩
      rwa [hb.keyFor hkey]

/-- The comparison of an inert entry is steady if that of its value is. -/
theorem Steady.inertEntry {ls rs : List (Ref × Ref)} {e : Ref × Ref}
    (hl : w.schemaOf? l = none) (hr : w.schemaOf? r = none) (hls : w.payload? l = some (.map ls))
    (hrs : w.payload? r = some (.map rs)) (he : e ∈ ls) (hinert : w.InertEntry e)
    (h : ∀ a a', w.Meets l a → w.Meets r a' → w.Inert (some a) → Steady w (inner.objects a a' d)) :
    Steady w (inner.entry w rs d e) := by
  refine .entry (fun k hk => (hk ▸ hinert.1).root) fun e' he' => ?_
  refine (steady_congruence w).refs inner inner fun a a' ha ha' => ?_
  exact h a a' (World.meets_of_entry hl hls he (.inr ha))
    (World.meets_of_entry hr hrs he' (.inr ha')) (ha ▸ hinert.2)

/-- Objects of one type that cannot be bound are the same, or compared by attributes or contents. -/
theorem objectsWithin_of_unbindable (hl : w.isBindable l = false)
    (htype : w.typeIndex l = w.typeIndex r) (hb : OnlyBindable w b) :
    (objectsWithin w mapFree (n + 1) l r d : Comparison (Except Fault)) b =
      (if l = r then check true
        else if w.schemaOf? l = none then
          Inner.contents ⟨mapFree, objectsWithin w mapFree n⟩ w l r d
        else Inner.attrs ⟨mapFree, objectsWithin w mapFree n⟩ w l r) b := by
  have hr : w.isBindable r = false := World.isBindable_congr htype ▸ hl
  have hcompare : (objectsWithin w mapFree (n + 1) l r d : Comparison (Except Fault)) b = _ :=
    objectsWithin_of_unbound (hb.counterpart? hl) (hb.isTaken hr) htype
  rw [hcompare]
  cases hschema : w.schemaOf? l with
  | none =>
      by_cases heq : l = r
      · simp only [if_pos heq]
        rfl
      · simp only [if_neg heq, if_true]
  | some schema =>
      have htree : schema.kind = .tree := by simpa [World.isBindable, hschema] using hl
      by_cases heq : l = r
      · simp only [htree, Inner.nodes, if_pos heq]
      · simp only [htree, Inner.nodes, if_neg heq, reduceCtorEq, if_false]

/-- A comparison with an inert object is steady. -/
theorem steady_objectsWithin (n : Nat) : ∀ l r d, w.NestedWithin n l → w.Inert (some l) →
    w.Readable (some l) → w.Readable (some r) → Steady w (objectsWithin w mapFree n l r d) := by
  induction n with
  | zero => exact fun _ _ _ hnested => hnested.elim
  | succ n ih =>
      intro l r d hnested hinert hl hr
      by_cases htype : w.typeIndex l = w.typeIndex r
      swap
      · exact ⟨false, fun b hb =>
          objectsWithin_of_barred (hb.counterpart? hinert.root) (.inr htype)⟩
      have hbelow : ∀ a a' e, w.Meets l a → w.Meets r a' →
          Steady w (objectsWithin w mapFree n a a' e) := fun a a' e ha ha' =>
        ih a a' e (hnested a (World.refers_of_meets ha)) (hinert.step ha) (hl.step ha) (hr.step ha')
      have hP := steady_congruence w
      let inner : Inner (Except Fault) := ⟨mapFree, objectsWithin w mapFree n⟩
      refine Steady.congr ?_ fun b hb => objectsWithin_of_unbindable hinert.root htype hb
      split_ifs with heq hschema
      · exact hP.check true
      · have hschema' := (World.schemaOf?_congr htype.symm).trans hschema
        refine hP.contents inner inner (.refl w) hschema hschema'
          (fun _ _ => tensorsEqual_answers hl hr) (hbelow · · d) ?_
        intro ls rs _ _ hls hrs hls' hrs'
        exact hP.all _ (inner.entry w rs d) fun e he => .inertEntry hschema hschema' hls hrs he
          (hinert.entry hschema hls he) fun a a' ha ha' _ => hbelow a a' d ha ha'
      · exact hP.attrs inner inner (.refl w) hschema (World.schemaOf?_congr htype ▸ hschema) hbelow

/-! ## Comparisons in two worlds -/

/-- The comparison comes to an end, and binds nothing that cannot be bound. -/
def Answers (w : World κ) (c : Comparison (Except Fault)) : Prop :=
  ∀ b, OnlyBindable w b → ∃ found, c b = .ok found ∧ ∀ b', found = some b' → OnlyBindable w b'

/-- Both comparisons come to the same end. -/
def Concurs (w : World κ) (c c' : Comparison (Except Fault)) : Prop :=
  Answers w c ∧ ∀ b, OnlyBindable w b → c' b = c b

theorem concurs_congruence (w : World κ) : Congruence (Concurs w) where
  check equal := by
    refine ⟨fun b hb => ⟨_, rfl, fun b' hb' => ?_⟩, fun _ _ => rfl⟩
    cases equal with
    | false => cases hb'
    | true =>
        cases hb'
        exact hb
  both := by
    rintro f f' s s' ⟨hf, hf'⟩ ⟨hs, hs'⟩
    refine ⟨fun b hb => ?_, fun b hb => ?_⟩
    all_goals obtain ⟨found, hfound, hkeep⟩ := hf b hb
    · simp only [both, hfound, Bind.bind, Except.bind]
      cases found with
      | none => exact ⟨none, rfl, by simp⟩
      | some b₁ => exact hs b₁ (hkeep b₁ rfl)
    · simp only [both, hf' b hb, hfound, Bind.bind, Except.bind]
      cases found with
      | none => rfl
      | some b₁ => exact hs' b₁ (hkeep b₁ rfl)

/-- Two comparisons can be exchanged if one of them is steady. -/
theorem both_swap {f g s : Comparison (Except Fault)} (hinert : Steady w f ∨ Steady w g)
    (hf : Answers w f) (hg : Answers w g) (hb : OnlyBindable w b) :
    both f (both g s) b = both g (both f s) b := by
  wlog hsteady : Steady w f generalizing f g
  · exact (this hinert.symm hg hf (hinert.resolve_left hsteady)).symm
  obtain ⟨equal, hequal⟩ := hsteady
  obtain ⟨found, hfound, hkeep⟩ := hg b hb
  have hafter : ∀ b₁, found = some b₁ → f b₁ = check equal b₁ := fun b₁ h => hequal b₁ (hkeep b₁ h)
  cases equal <;> cases found <;>
    simp [both, hequal b hb, hfound, hafter, check, bind, Except.bind, pure, Except.pure]

/-- Comparisons of which all but one are steady can be made in any order. -/
theorem all_perm {f : α → Comparison (Except Fault)} {as as' : List α} (hperm : as.Perm as')
    (hinert : as.Pairwise fun a a' => Steady w (f a) ∨ Steady w (f a'))
    (hanswers : ∀ a ∈ as, Answers w (f a)) (hb : OnlyBindable w b) :
    all f as b = all f as' b := by
  induction hperm generalizing b with
  | nil => rfl
  | cons a _ ih =>
      obtain ⟨found, hfound, hkeep⟩ := hanswers a List.mem_cons_self b hb
      simp only [all, both, hfound, Bind.bind, Except.bind]
      cases found with
      | none => rfl
      | some b₁ =>
          exact ih (List.pairwise_cons.mp hinert).2
            (fun a' ha' => hanswers a' (List.mem_cons_of_mem _ ha')) (hkeep b₁ rfl)
  | swap a a' as =>
      exact both_swap ((List.pairwise_cons.mp hinert).1 a List.mem_cons_self)
        (hanswers a' List.mem_cons_self) (hanswers a (by simp)) hb
  | trans hperm _ ih ih' =>
      rw [ih hinert hanswers hb]
      exact ih' ((hperm.pairwise_iff fun {_ _} hor => hor.symm).mp hinert)
        (fun a ha => hanswers a (hperm.mem_iff.mpr ha)) hb

/-- An entry is compared with the same one in whatever order the right map lists its entries. -/
theorem Concurs.entry (hlist : Relisting w w') {rs rs' : List (Ref × Ref)} {e : Ref × Ref}
    (hperm : rs.Perm rs') (hdistinct : rs.Pairwise fun e e' => w.sameKey e.1 e'.1 = false)
    (hvalue : ∀ e' ∈ rs, Concurs w (inner.refs e.2 e'.2 d) (inner'.refs e.2 e'.2 d)) :
    Concurs w (inner.entry w rs d e) (inner'.entry w' rs' d e) := by
  have hfind : ∀ b, rs'.find? (fun p => w'.sameKey p.1 (Inner.keyFor w' e.1 b)) =
      rs.find? (fun p => w.sameKey p.1 (Inner.keyFor w e.1 b)) := by
    intro b
    have hkey : Inner.keyFor w' e.1 b = Inner.keyFor w e.1 b := by
      simp only [Inner.keyFor, hlist.text?]
    simp only [hkey, hlist.sameKey]
    refine (find?_perm hperm (hdistinct.imp fun {e₁ e₂} hne => ?_)).symm
    by_contra hboth
    simp only [not_or, Bool.not_eq_false] at hboth
    exact Bool.false_ne_true (hne.symm.trans (World.sameKey_trans hboth.1 hboth.2))
  refine ⟨fun b hb => ?_, fun b hb => ?_⟩
  · cases he' : rs.find? (fun p => w.sameKey p.1 (Inner.keyFor w e.1 b)) with
    | none => exact ⟨none, Inner.entry_of_not_found he', by simp⟩
    | some e' =>
        rw [Inner.entry_of_find? he']
        exact (hvalue e' (List.mem_of_find?_eq_some he')).1 b hb
  · cases he' : rs.find? (fun p => w.sameKey p.1 (Inner.keyFor w e.1 b)) with
    | none =>
        rw [Inner.entry_of_not_found he', Inner.entry_of_not_found ((hfind b).trans he')]
    | some e' =>
        rw [Inner.entry_of_find? he', Inner.entry_of_find? ((hfind b).trans he')]
        exact (hvalue e' (List.mem_of_find?_eq_some he')).2 b hb

/-- Objects that can be bound are bound after their comparisons. -/
theorem Concurs.binding {c c' : Comparison (Except Fault)} (h : Concurs w c c')
    (hl : w.isBindable l = true) (hr : w.isBindable r = true) :
    Concurs w (binding l r c) (binding l r c') := by
  refine ⟨fun b hb => ?_, fun b hb => by simp only [Equality.binding, h.2 b hb]⟩
  obtain ⟨found, hfound, hkeep⟩ := h.1 b hb
  refine ⟨found.map ((l, r) :: ·), by simp only [Equality.binding, hfound]; rfl, ?_⟩
  rintro _ h
  obtain ⟨b₁, hb₁, rfl⟩ := Option.map_eq_some_iff.mp h
  exact List.forall_mem_cons.mpr ⟨⟨hl, hr⟩, hkeep b₁ hb₁⟩

section Parts

variable (inner inner' : Inner (Except Fault)) (hlist : Relisting w w')
  (h : ∀ a a' d, w.Meets l a → w.Meets r a' → Concurs w (inner.objects a a' d) (inner'.objects a a' d))
include hlist h

theorem concurs_nodes {schema : Schema} (hmap : inner'.map = inner.map)
    (hl : w.schemaOf? l = some schema) (hr : w.schemaOf? r = some schema) :
    Concurs w (inner.nodes w schema.kind l r d) (inner'.nodes w' schema.kind l r d) := by
  have hP := concurs_congruence w
  have hattrs := hP.attrs inner inner' hlist (by simp [hl]) (by simp [hr]) h
  have hbindable : schema.kind ≠ .tree → w.isBindable l = true ∧ w.isBindable r = true :=
    fun hkind => by simp [World.isBindable, hl, hr, hkind]
  unfold Inner.nodes
  rw [hmap]
  cases hkind : schema.kind with
  | tree =>
      dsimp only
      split_ifs
      · exact hP.check true
      · exact hattrs
  | graph =>
      obtain ⟨hl, hr⟩ := hbindable (by simp [hkind])
      exact hattrs.binding hl hr
  | «variable» =>
      obtain ⟨hl, hr⟩ := hbindable (by simp [hkind])
      dsimp only
      split_ifs
      · exact hP.check true
      · exact hattrs.binding hl hr
      · exact hP.check false

theorem concurs_entries {ls rs ls' rs' : List (Ref × Ref)}
    (hsteady : ∀ a a', w.Meets l a → w.Meets r a' → w.Inert (some a) →
      Steady w (inner.objects a a' d))
    (hl : w.schemaOf? l = none) (hr : w.schemaOf? r = none) (hread : w.Readable (some r))
    (hls : w.payload? l = some (.map ls)) (hrs : w.payload? r = some (.map rs))
    (hls' : w'.payload? l = some (.map ls')) (hrs' : w'.payload? r = some (.map rs')) :
    Concurs w (all (inner.entry w rs d) ls) (all (inner'.entry w' rs' d) ls') := by
  have hP := concurs_congruence w
  obtain ⟨_, heq, hperm, hfree⟩ := hlist.entries hls
  cases heq.symm.trans hls'
  obtain ⟨_, heq, hperm', -⟩ := hlist.entries hrs
  cases heq.symm.trans hrs'
  have hentry : ∀ e ∈ ls, Concurs w (inner.entry w rs d e) (inner'.entry w' rs' d e) := by
    intro e he
    refine .entry hlist hperm' (hread.distinct (.root r) hrs) fun e' he' => ?_
    exact hP.refs inner inner' fun a a' ha ha' => h a a' d
      (World.meets_of_entry hl hls he (.inr ha)) (World.meets_of_entry hr hrs he' (.inr ha'))
  have horder : ∀ b, OnlyBindable w b →
      all (inner.entry w rs d) ls' b = all (inner.entry w rs d) ls b := by
    intro b hb
    rcases hfree with rfl | hfree
    · rfl
    · refine (all_perm hperm (hfree.imp_of_mem fun {e e'} he he' hinert => ?_)
        (fun e he => (hentry e he).1) hb).symm
      exact hinert.imp (.inertEntry hl hr hls hrs he · hsteady)
        (.inertEntry hl hr hls hrs he' · hsteady)
  have hall : Concurs w (all (inner.entry w rs d) ls') (all (inner'.entry w' rs' d) ls') :=
    hP.all _ _ fun e he => hentry e (hperm.mem_iff.mpr he)
  exact ⟨(hP.all _ _ hentry).1, fun b hb => (hall.2 b hb).trans (horder b hb)⟩

end Parts

/-- What concurs with a part of a comparison from any binding concurs as a whole. -/
theorem Concurs.of_each {c c' : Comparison (Except Fault)}
    (h : ∀ b, OnlyBindable w b → ∃ f f', Concurs w f f' ∧ c b = f b ∧ c' b = f' b) :
    Concurs w c c' := by
  refine ⟨fun b hb => ?_, fun b hb => ?_⟩
  all_goals obtain ⟨f, f', hconcurs, hf, hf'⟩ := h b hb
  · exact hf ▸ hconcurs.1 b hb
  · rw [hf, hf', hconcurs.2 b hb]

/-- A comparison comes to the same end in both worlds. -/
theorem concurs_objectsWithin (hlist : Relisting w w') (n : Nat) :
    ∀ l r d, w.NestedWithin n l → w.Readable (some l) → w.Readable (some r) →
      Concurs w (objectsWithin w mapFree n l r d) (objectsWithin w' mapFree n l r d) := by
  induction n with
  | zero => exact fun _ _ _ hnested => hnested.elim
  | succ n ih =>
      intro l r d hnested hl hr
      have hP := concurs_congruence w
      refine .of_each fun b hb => ?_
      cases hbound : b.counterpart? l with
      | some c =>
          exact ⟨_, _, hP.check (c == r), objectsWithin_of_bound hbound,
            objectsWithin_of_bound hbound⟩
      | none =>
          by_cases hbarred : b.isTaken r = true ∨ w.typeIndex l ≠ w.typeIndex r
          · have hbarred' : b.isTaken r = true ∨ w'.typeIndex l ≠ w'.typeIndex r := by
              rwa [hlist.typeIndex, hlist.typeIndex]
            exact ⟨_, _, hP.check false, objectsWithin_of_barred hbound hbarred,
              objectsWithin_of_barred hbound hbarred'⟩
          simp only [not_or, Bool.not_eq_true, ne_eq, not_not] at hbarred
          obtain ⟨hfree, htype⟩ := hbarred
          have htype' : w'.typeIndex l = w'.typeIndex r := by rwa [hlist.typeIndex, hlist.typeIndex]
          have hcompare : (objectsWithin w mapFree (n + 1) l r d : Comparison (Except Fault)) b = _ :=
            objectsWithin_of_unbound hbound hfree htype
          have hcompare' : (objectsWithin w' mapFree (n + 1) l r d : Comparison (Except Fault)) b = _ :=
            objectsWithin_of_unbound hbound hfree htype'
          have hbelow : ∀ a a' e, w.Meets l a → w.Meets r a' → Concurs w
              (objectsWithin w mapFree n a a' e) (objectsWithin w' mapFree n a a' e) :=
            fun a a' e ha ha' =>
              ih a a' e (hnested a (World.refers_of_meets ha)) (hl.step ha) (hr.step ha')
          have hsteady : ∀ a a', w.Meets l a → w.Meets r a' → w.Inert (some a) →
              Steady w (objectsWithin w mapFree n a a' d) := fun a a' ha ha' hinert =>
            steady_objectsWithin n a a' d (hnested a (World.refers_of_meets ha)) hinert (hl.step ha)
              (hr.step ha')
          let inner : Inner (Except Fault) := ⟨mapFree, objectsWithin w mapFree n⟩
          let inner' : Inner (Except Fault) := ⟨mapFree, objectsWithin w' mapFree n⟩
          rw [hlist.schemaOf?] at hcompare'
          cases hschema : w.schemaOf? l with
          | some schema =>
              rw [hschema] at hcompare hcompare'
              exact ⟨_, _, concurs_nodes inner inner' hlist hbelow rfl hschema
                ((World.schemaOf?_congr htype.symm).trans hschema), hcompare, hcompare'⟩
          | none =>
              rw [hschema] at hcompare hcompare'
              by_cases heq : l = r
              · exact ⟨_, _, hP.check true, hcompare.trans (if_pos heq), hcompare'.trans (if_pos heq)⟩
              · have hschema' := (World.schemaOf?_congr htype.symm).trans hschema
                have hcontents := hP.contents inner inner' hlist hschema hschema'
                  (fun _ _ => tensorsEqual_answers hl hr) (hbelow · · d)
                  fun ls rs ls' rs' hls hrs hls' hrs' =>
                    concurs_entries inner inner' hlist hbelow hsteady hschema hschema' hr hls hrs hls'
                      hrs'
                exact ⟨_, _, hcontents, hcompare.trans (if_neg heq), hcompare'.trans (if_neg heq)⟩

end Equality

section

variable {κ : Type} {w w' : World κ} {left right : Ref} {mapFree : Bool}

/-- A comparison of graphs finds the same in whatever order maps list their entries. -/
theorem structuralEqual_of_relisting (hlist : Relisting w w') (hl : w.Readable left)
    (hr : w.Readable right) :
    ∃ equal, structuralEqual w left right mapFree = .ok equal ∧
      structuralEqual w' left right mapFree = .ok equal := by
  let inner : Equality.Inner (Except Fault) :=
    ⟨mapFree, Equality.objectsWithin w mapFree (w.heap.cells.size + 1)⟩
  let inner' : Equality.Inner (Except Fault) :=
    ⟨mapFree, Equality.objectsWithin w' mapFree (w.heap.cells.size + 1)⟩
  have hrefs : Equality.Concurs w (inner.refs left right false) (inner'.refs left right false) := by
    refine (Equality.concurs_congruence w).refs inner inner' fun a a' ha ha' => ?_
    exact Equality.concurs_objectsWithin hlist _ a a' false (hl.acyclic a ha).nestedWithin (ha ▸ hl)
      (ha' ▸ hr)
  have hnil := Equality.OnlyBindable.nil w
  obtain ⟨found, hfound, -⟩ := hrefs.1 [] hnil
  have hfound' := (hrefs.2 [] hnil).trans hfound
  refine ⟨found.isSome, bind_eq_ok.mpr ⟨found, hfound, rfl⟩, bind_eq_ok.mpr ⟨found, ?_, rfl⟩⟩
  rwa [hlist.size]

/-- A comparison of graphs comes to an end. -/
theorem structuralEqual_answers (mapFree : Bool) (hl : w.Readable left) (hr : w.Readable right) :
    ∃ equal, structuralEqual w left right mapFree = .ok equal := by
  obtain ⟨equal, hequal, -⟩ := structuralEqual_of_relisting (.refl w) hl hr
  exact ⟨equal, hequal⟩

end

end ObjectRuntime
