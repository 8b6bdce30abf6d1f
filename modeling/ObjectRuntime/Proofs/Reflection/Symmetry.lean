import ObjectRuntime.Proofs.Reflection.EntryOrder
set_option autoImplicit false

/-!
# Comparisons from right to left

A comparison looks up the entries of the left map in the right one, in the order of the left map, and
translates its keys from left to right only.  So the two sides count differently, unless the keys of
maps cannot be bound and of the values in a map at most one holds anything that can (`Unordered`).
Then a comparison that finds no difference finds none from right to left either, and binds the same
objects the other way round (`Mirrors`).
-/

namespace ObjectRuntime

open World (Readable Relisting)

namespace World

variable {κ : Type} {w : World κ} {a b : ObjId}

/-- No key of a map in the graph can be bound, and the order of its entries does not count. -/
structure Unordered (w : World κ) (g : Ref) : Prop where
  orderFree : ∀ {a entries}, w.Met g a → w.payload? a = some (.map entries) → w.OrderFree entries
  keys : ∀ {a entries k v}, w.Met g a → w.payload? a = some (.map entries) →
    (some k, v) ∈ entries → w.isBindable k = false

theorem Unordered.step (h : w.Unordered (some a)) (hab : w.Meets a b) : w.Unordered (some b) where
  orderFree hx := h.orderFree (hab.met hx)
  keys hx := h.keys (hab.met hx)

end World

namespace Equality

variable {κ α β : Type} {w : World κ} {b b' : Binding} {l r : ObjId} {d mapFree : Bool} {n : Nat}
  {inner : Inner (Except Fault)} {c c' f f' s s' : Comparison (Except Fault)}

/-- The objects that are bound, seen from the right graph. -/
def Binding.flip (b : Binding) : Binding := b.map Prod.swap

/-- What is bound corresponds one to one, is similar, and can be bound. -/
structure Exact (w : World κ) (b : Binding) : Prop where
  consistent : Consistent w b
  bindable : OnlyBindable w b

/-- If the first comparison finds no difference, the second one finds none from right to left. -/
def Mirrors (w : World κ) (c c' : Comparison (Except Fault)) : Prop :=
  ∀ b b', Exact w b → Succeeds c b b' → Exact w b' ∧ Succeeds c' b.flip b'.flip

theorem Exact.nil (w : World κ) : Exact w [] := ⟨.nil w, .nil w⟩

theorem OnlyBindable.flip (hb : OnlyBindable w b) : OnlyBindable w b.flip := by
  intro p hp
  obtain ⟨q, hq, rfl⟩ := List.mem_map.mp hp
  exact (hb q hq).symm

/-- The counterpart of the counterpart is the object. -/
theorem counterpart?_flip (hb : Consistent w b) (h : (l, r) ∈ b) :
    b.flip.counterpart? r = some l := by
  have hmem : (r, l) ∈ b.flip := List.mem_map.mpr ⟨_, h, rfl⟩
  cases hbound : b.flip.counterpart? r with
  | none => exact absurd hmem (not_mem_of_unbound hbound)
  | some x =>
      obtain ⟨p, hp, heq⟩ := List.mem_map.mp (mem_of_lookup hbound)
      obtain ⟨rfl, rfl⟩ := Prod.mk.inj heq
      rw [(hb.oneToOne h hp).mpr rfl]

theorem counterpart?_flip_of_free (h : b.isTaken r = false) : b.flip.counterpart? r = none := by
  refine List.lookup_eq_none_iff.mpr fun p hp => ?_
  obtain ⟨q, hq, rfl⟩ := List.mem_map.mp hp
  have hne : q.2 ≠ r := by simpa using List.any_eq_false.mp h q hq
  simpa using hne.symm

theorem isTaken_flip_of_unbound (h : b.counterpart? l = none) : b.flip.isTaken l = false := by
  refine List.any_eq_false.mpr fun p hp => ?_
  obtain ⟨q, hq, rfl⟩ := List.mem_map.mp hp
  have hne : l ≠ q.1 := by simpa using List.lookup_eq_none_iff.mp h q hq
  simpa using hne.symm

/-- Values are equal in both directions. -/
theorem plainEqual_comm (v v' : Value) : plainEqual v v' = plainEqual v' v := by
  cases v with
  | float x =>
      cases v' with
      | float y => simp only [plainEqual, Double.abs_sub_comm x y]
      | _ => exact BEq.comm
  | _ => cases v' <;> exact BEq.comm

theorem tensorsEqual_symm (h : tensorsEqual w l r = .ok true) : tensorsEqual w r l = .ok true := by
  unfold tensorsEqual at h ⊢
  split at h
  · rename_i s t hs ht
    split_ifs at h with hsame
    · obtain ⟨data, hdata, h⟩ := bind_eq_ok.mp h
      obtain ⟨data', hdata', h⟩ := bind_eq_ok.mp h
      obtain rfl : data = data' := by simpa using Except.ok.inj h
      simp only [hs, ht, hsame.1, hsame.2, and_self, if_true, hdata, hdata']
      simp [bind, Except.bind, pure, Except.pure]
    · cases h
  · cases h

/-! ## Parts of a comparison -/

namespace Mirrors

theorem check (equal : Bool) : Mirrors w (check equal) (check equal) := by
  intro b b' hb h
  obtain ⟨rfl, rfl⟩ := check_inv h
  exact ⟨hb, rfl⟩

theorem both (hf : Mirrors w f f') (hs : Mirrors w s s') : Mirrors w (both f s) (both f' s') := by
  intro b b' hb h
  obtain ⟨b₁, hfirst, hsecond⟩ := both_inv h
  obtain ⟨hb₁, hfirst⟩ := hf b b₁ hb hfirst
  obtain ⟨hb', hsecond⟩ := hs b₁ b' hb₁ hsecond
  exact ⟨hb', bind_eq_ok.mpr ⟨_, hfirst, hsecond⟩⟩

/-- Parts that are compared one after another, beside their mirror images. -/
theorem all {P : α → β → Prop} {f : α → Comparison (Except Fault)}
    {g : β → Comparison (Except Fault)} {as : List α} {bs : List β} (hrel : List.Forall₂ P as bs)
    (h : ∀ a b, a ∈ as → b ∈ bs → P a b → Mirrors w (f a) (g b)) :
    Mirrors w (Equality.all f as) (Equality.all g bs) := by
  induction hrel with
  | nil => exact check true
  | @cons a b as bs hab _ ih =>
      exact both (h a b List.mem_cons_self List.mem_cons_self hab) (ih fun a' b' ha' hb' =>
        h a' b' (List.mem_cons_of_mem _ ha') (List.mem_cons_of_mem _ hb'))

/-- Two lists that are compared one by one. -/
theorem zip {f : α × α → Comparison (Except Fault)} {as bs : List α}
    (h : ∀ p ∈ as.zip bs, Mirrors w (f p) (f p.swap)) :
    Mirrors w (Equality.all f (as.zip bs)) (Equality.all f (bs.zip as)) := by
  rw [← List.zip_swap as bs]
  exact all (List.forall₂_map_right_iff.mpr (List.forall₂_same.mpr fun _ _ => rfl))
    fun p _ hp _ heq => heq ▸ h p hp

theorem refs {left right : Ref} (h : ∀ a a', left = some a → right = some a' →
      Mirrors w (inner.objects a a' d) (inner.objects a' a d)) :
    Mirrors w (inner.refs left right d) (inner.refs right left d) := by
  cases left with
  | none => cases right <;> exact check _
  | some a =>
      cases right with
      | none => exact check false
      | some a' => exact h a a' rfl rfl

theorem attr {p : Attr × Attr} (hplace : p.1.isDefinition = p.2.isDefinition)
    (h : ∀ a a' d, p.1.value.object? = some a → p.2.value.object? = some a' →
      Mirrors w (inner.objects a a' d) (inner.objects a' a d)) :
    Mirrors w (inner.attr p) (inner.attr p.swap) := by
  unfold Inner.attr Inner.values
  simp only [Prod.fst_swap, Prod.snd_swap, ← hplace, plainEqual_comm p.2.value p.1.value,
    eq_comm (a := p.2.key)]
  split_ifs
  · cases hv : p.1.value.object? with
    | none => cases hv' : p.2.value.object? <;> exact check _
    | some a =>
        cases hv' : p.2.value.object? with
        | none => exact check false
        | some a' => exact h a a' _ hv hv'
  · exact check false

theorem attrs {schema : Schema} (hl : w.schemaOf? l = some schema)
    (hr : w.schemaOf? r = some schema)
    (h : ∀ a a' d, w.Meets l a → w.Meets r a' →
      Mirrors w (inner.objects a a' d) (inner.objects a' a d)) :
    Mirrors w (inner.attrs w l r) (inner.attrs w r l) := by
  rw [Inner.attrs_eq inner (by simp [hl]) (by simp [hr]),
    Inner.attrs_eq inner (by simp [hr]) (by simp [hl])]
  simp only [eq_comm (a := (w.shown r).length)]
  split_ifs with hlength
  · refine zip fun p hp => ?_
    obtain ⟨hleft, hright⟩ := List.of_mem_zip hp
    refine attr ?_ fun a a' d ha ha' =>
      h a a' d (World.meets_of_attr hleft ha) (World.meets_of_attr hright ha')
    obtain ⟨i, hi, rfl⟩ := List.mem_iff_getElem.mp hp
    rw [List.length_zip] at hi
    rw [List.getElem_zip]
    exact (World.shown_field hl hr (by omega) (by omega)).2
  · exact check false

end Mirrors

/-! ## Maps -/

/-- The entry of a map that a key finds. -/
def Finds (w : World κ) (entries : List (Ref × Ref)) (key : Ref) (e : Ref × Ref) : Prop :=
  entries.find? (fun p => w.sameKey p.1 key) = some e

/-- The map has distinct keys that cannot be bound. -/
structure PlainKeys (w : World κ) (entries : List (Ref × Ref)) : Prop where
  distinct : entries.Pairwise fun e e' => w.sameKey e.1 e'.1 = false
  unbindable : ∀ e ∈ entries, ∀ k, e.1 = some k → w.isBindable k = false

theorem Finds.mem {rs : List (Ref × Ref)} {key : Ref} {e : Ref × Ref} (h : Finds w rs key e) :
    e ∈ rs := List.mem_of_find?_eq_some h

theorem Finds.sameKey {rs : List (Ref × Ref)} {key : Ref} {e : Ref × Ref} (h : Finds w rs key e) :
    w.sameKey e.1 key = true := by simpa using List.find?_some h

/-- What is found by the key of an entry finds the entry by its own. -/
theorem Finds.symm {ls rs : List (Ref × Ref)} {e e' : Ref × Ref} (h : Finds w rs e.1 e')
    (hls : PlainKeys w ls) (he : e ∈ ls) : Finds w ls e'.1 e := by
  simp only [Finds, World.sameKey_congr h.sameKey]
  exact World.find?_entry hls.distinct he

/-- Entries that are found by the keys of as many others are all there are. -/
theorem perm_of_finds {ls rs ps : List (Ref × Ref)}
    (hrel : List.Forall₂ (fun e e' => Finds w rs e.1 e') ls ps) (hls : PlainKeys w ls)
    (hlength : ls.length = rs.length) : ps.Perm rs := by
  have hnodup : ps.Nodup := by
    refine pairwise_of_forall₂ hrel hls.distinct fun e _ e₂ _ e' e₂' h h₂ hne heq => ?_
    have hsame : w.sameKey e.1 e₂.1 = true := by
      rw [← World.sameKey_congr h₂.sameKey, World.sameKey_comm, ← heq]
      exact h.sameKey
    exact Bool.false_ne_true (hne.symm.trans hsame)
  have hsubset : ps ⊆ rs := by
    intro e' he'
    obtain ⟨e, -, h⟩ := exists_mem_of_forall₂ hrel he'
    exact h.mem
  exact (List.subperm_of_subset hnodup hsubset).perm_of_length_le
    (by rw [← hrel.length_eq, hlength])

theorem Inner.entry_of_finds {rs : List (Ref × Ref)} {e e' : Ref × Ref} (hb : OnlyBindable w b)
    (hkey : ∀ k, e.1 = some k → w.isBindable k = false) (h : Finds w rs e.1 e') :
    inner.entry w rs d e b = inner.refs e.2 e'.2 d b :=
  entry_of_find? (by rwa [hb.keyFor hkey])

theorem Mirrors.entry {ls rs : List (Ref × Ref)} {e e' : Ref × Ref} (hls : PlainKeys w ls)
    (hrs : PlainKeys w rs) (he : e ∈ ls) (h : Finds w rs e.1 e')
    (hvalue : Mirrors w (inner.refs e.2 e'.2 d) (inner.refs e'.2 e.2 d)) :
    Mirrors w (inner.entry w rs d e) (inner.entry w ls d e') := by
  intro b b' hb hc
  rw [Succeeds, Inner.entry_of_finds hb.bindable (hls.unbindable e he) h] at hc
  obtain ⟨hb', hc'⟩ := hvalue b b' hb hc
  refine ⟨hb', ?_⟩
  rw [Succeeds, Inner.entry_of_finds hb.bindable.flip (hrs.unbindable e' h.mem) (h.symm hls he)]
  exact hc'

/-- The parts of two maps are compared from right to left in the order of the right map. -/
theorem Mirrors.entries {ls rs : List (Ref × Ref)} (hls : PlainKeys w ls) (hrs : PlainKeys w rs)
    (hlength : ls.length = rs.length)
    (hvalues : ∀ e ∈ ls, ∀ e' ∈ rs, Mirrors w (inner.refs e.2 e'.2 d) (inner.refs e'.2 e.2 d))
    (hinert : rs.Pairwise fun e e' =>
      Steady w (inner.entry w ls d e) ∨ Steady w (inner.entry w ls d e'))
    (hanswers : ∀ e ∈ rs, Answers w (inner.entry w ls d e)) :
    Mirrors w (Equality.all (inner.entry w rs d) ls) (Equality.all (inner.entry w ls d) rs) := by
  intro b b' hb h
  have hfound : ∀ e ∈ ls, ∃ e', Finds w rs e.1 e' := by
    have hstep : ∀ e ∈ ls, ∀ b₁ b₂, Exact w b₁ → Succeeds (inner.entry w rs d e) b₁ b₂ →
        Exact w b₂ ∧ True ∧ ∃ e', Finds w rs e.1 e' := by
      intro e he b₁ b₂ hb₁ hc
      obtain ⟨k, v, hfind, -⟩ := Inner.entry_inv hc
      rw [hb₁.bindable.keyFor (hls.unbindable e he)] at hfind
      have hmem := List.mem_of_find?_eq_some hfind
      exact ⟨(Mirrors.entry hls hrs he hfind (hvalues e he _ hmem) b₁ b₂ hb₁ hc).1, trivial, _, hfind⟩
    exact (all_keeps (R := fun _ _ => True) (fun (e : Ref × Ref) _ => ∃ e', Finds w rs e.1 e')
      (fun _ => trivial) (fun _ _ => trivial) (fun {_ _ _} hfound _ => hfound) ls b hstep hb h).2.2
  choose! partner hpartner using hfound
  have hrel : List.Forall₂ (fun e e' => Finds w rs e.1 e') ls (ls.map partner) :=
    List.forall₂_map_right_iff.mpr (List.forall₂_same.mpr hpartner)
  have hperm := perm_of_finds hrel hls hlength
  obtain ⟨hb', hc⟩ := Mirrors.all hrel (fun e e' he he' hfinds => Mirrors.entry hls hrs he hfinds
    (hvalues e he e' (hperm.mem_iff.mp he'))) b b' hb h
  refine ⟨hb', ?_⟩
  rw [Succeeds, all_perm hperm.symm hinert hanswers hb.bindable.flip]
  exact hc

/-! ## Objects -/

theorem Mirrors.contents (hl : w.schemaOf? l = none) (hr : w.schemaOf? r = none)
    (h : ∀ a a', w.Meets l a → w.Meets r a' →
      Mirrors w (inner.objects a a' d) (inner.objects a' a d))
    (hmaps : ∀ ls rs, w.payload? l = some (.map ls) → w.payload? r = some (.map rs) →
      ls.length = rs.length →
      Mirrors w (Equality.all (inner.entry w rs d) ls) (Equality.all (inner.entry w ls d) rs)) :
    Mirrors w (inner.contents w l r d) (inner.contents w r l d) := by
  intro b b' hb hc
  rcases Inner.contents_inv hc with ⟨s, hs, ht, rfl⟩ | ⟨s, hs, ht, rfl⟩ |
      ⟨ls, rs, hls, hrs, hlength, hc⟩ | ⟨ls, rs, hls, hrs, hlength, hc⟩ | ⟨s, t, hs, ht, hequal, rfl⟩
  · exact ⟨hb, by simp [Succeeds, Inner.contents, hs, ht, Equality.check, pure, Except.pure]⟩
  · exact ⟨hb, by simp [Succeeds, Inner.contents, hs, ht, Equality.check, pure, Except.pure]⟩
  · simp only [Succeeds, Inner.contents, hls, hrs, hlength, if_true]
    refine Mirrors.zip (f := fun p => inner.refs p.1 p.2 d)
      (fun p hp => .refs fun a a' ha ha' => ?_) b b' hb hc
    obtain ⟨hleft, hright⟩ := List.of_mem_zip hp
    exact h a a' (World.meets_of_element hl hls (ha ▸ hleft))
      (World.meets_of_element hr hrs (ha' ▸ hright))
  · simp only [Succeeds, Inner.contents, hls, hrs, hlength, if_true]
    exact hmaps ls rs hls hrs hlength b b' hb hc
  · refine ⟨hb, ?_⟩
    simp only [Succeeds, Inner.contents, hs, ht, tensorsEqual_symm hequal]
    rfl

/-- Two objects of a reflected class, of which neither is bound. -/
theorem nodes_mirror {kind : NodeKind} (hattrs : Mirrors w (inner.attrs w l r) (inner.attrs w r l))
    (hb : Exact w b) (h : Succeeds (inner.nodes w kind l r d) b b') :
    Succeeds (inner.nodes w kind r l d) b.flip b'.flip := by
  have hbinding : ∀ {b'}, Succeeds (binding l r (inner.attrs w l r)) b b' →
      Succeeds (binding r l (inner.attrs w r l)) b.flip b'.flip := by
    intro b' h
    obtain ⟨b₁, hc, rfl⟩ := binding_inv h
    exact bind_eq_ok.mpr ⟨_, (hattrs b b₁ hb hc).2, rfl⟩
  unfold Inner.nodes at h ⊢
  cases kind with
  | graph => exact hbinding h
  | tree =>
      simp only [eq_comm (a := r)]
      dsimp only at h
      split_ifs at h ⊢
      · exact (Mirrors.check true b b' hb h).2
      · exact (hattrs b b' hb h).2
  | «variable» =>
      simp only [eq_comm (a := r)]
      dsimp only at h
      split_ifs at h ⊢
      · exact (Mirrors.check true b b' hb h).2
      · exact hbinding h
      · exact (Mirrors.check false b b' hb h).2

theorem PlainKeys.of_unordered {es : List (Ref × Ref)} (hl : w.Readable (some l))
    (hml : w.Unordered (some l)) (hes : w.payload? l = some (.map es)) : PlainKeys w es where
  distinct := hl.distinct (.root l) hes
  unbindable := by
    rintro ⟨_, v⟩ he k rfl
    exact hml.keys (.root l) hes he

/-- Maps without an order are compared from right to left if their values are. -/
theorem maps_mirror {ls rs : List (Ref × Ref)} (hnested : w.NestedWithin (n + 1) r)
    (hl : w.Readable (some l)) (hr : w.Readable (some r)) (hml : w.Unordered (some l))
    (hmr : w.Unordered (some r)) (hschema : w.schemaOf? l = none) (hschema' : w.schemaOf? r = none)
    (hls : w.payload? l = some (.map ls)) (hrs : w.payload? r = some (.map rs))
    (hlength : ls.length = rs.length)
    (h : ∀ a a', w.Meets l a → w.Meets r a' →
      Mirrors w (objectsWithin w mapFree n a a' d) (objectsWithin w mapFree n a' a d)) :
    Mirrors w (all (Inner.entry ⟨mapFree, objectsWithin w mapFree n⟩ w rs d) ls)
      (all (Inner.entry ⟨mapFree, objectsWithin w mapFree n⟩ w ls d) rs) := by
  let inner : Inner (Except Fault) := ⟨mapFree, objectsWithin w mapFree n⟩
  have hmeets : ∀ e ∈ ls, ∀ a, e.2 = some a → w.Meets l a := fun e he a ha =>
    World.meets_of_entry hschema hls he (.inr ha)
  have hmeets' : ∀ e' ∈ rs, ∀ a', e'.2 = some a' → w.Meets r a' := fun e' he' a' ha' =>
    World.meets_of_entry hschema' hrs he' (.inr ha')
  refine .entries (.of_unordered hl hml hls) (.of_unordered hr hmr hrs) hlength
    (fun e he e' he' => .refs fun a a' ha ha' => h a a' (hmeets e he a ha) (hmeets' e' he' a' ha'))
    ?_ fun e' he' => ?_
  · have hsteady : ∀ a' a, w.Meets r a' → w.Meets l a → w.Inert (some a') →
        Steady w (inner.objects a' a d) := fun a' a ha' ha hinert =>
      steady_objectsWithin n a' a d (hnested a' (World.refers_of_meets ha')) hinert
        (hr.step ha') (hl.step ha)
    refine (hmr.orderFree (.root r) hrs).imp_of_mem fun {e₁ e₂} he₁ he₂ hinert => ?_
    exact hinert.imp (.inertEntry hschema' hschema hrs hls he₁ · hsteady)
      (.inertEntry hschema' hschema hrs hls he₂ · hsteady)
  · have hentry : Concurs w (inner.entry w ls d e') (inner.entry w ls d e') := by
      refine .entry (.refl w) (.refl ls) (hl.distinct (.root l) hls) fun e he => ?_
      refine (concurs_congruence w).refs inner inner fun a' a ha' ha => ?_
      have ha' := hmeets' e' he' a' ha'
      exact concurs_objectsWithin (.refl w) n a' a d (hnested a' (World.refers_of_meets ha'))
        (hr.step ha') (hl.step (hmeets e he a ha))
    exact hentry.1

/-- What a comparison binds is exact. -/
theorem Exact.objectsWithin (hb : Exact w b) (hnested : w.NestedWithin n l)
    (hl : w.Readable (some l)) (hr : w.Readable (some r))
    (h : Succeeds (objectsWithin w mapFree n l r d) b b') : Exact w b' := by
  obtain ⟨found, hfound, hkeep⟩ :=
    (concurs_objectsWithin (.refl w) n l r d hnested hl hr).1 b hb.bindable
  exact ⟨(objectsWithin_sound w mapFree n hb.consistent (hl.acyclic l rfl) (hr.acyclic r rfl) h).1,
    hkeep b' (Except.ok.inj (hfound.symm.trans h))⟩

/-- An object and its counterpart are compared from right to left. -/
theorem mirrors_objectsWithin (n : Nat) : ∀ l r d, w.NestedWithin n l → w.NestedWithin n r →
    w.Readable (some l) → w.Readable (some r) → w.Unordered (some l) → w.Unordered (some r) →
      Mirrors w (objectsWithin w mapFree n l r d) (objectsWithin w mapFree n r l d) := by
  induction n with
  | zero => exact fun _ _ _ hnested => hnested.elim
  | succ n ih =>
      intro l r d hnested hnested' hl hr hml hmr b b' hb h
      refine ⟨hb.objectsWithin hnested hl hr h, ?_⟩
      rcases objectsWithin_inv h with ⟨hbound, rfl⟩ | ⟨hunbound, hfree, htype, h⟩
      · have hflip := counterpart?_flip hb.consistent (mem_of_lookup hbound)
        exact (objectsWithin_of_bound hflip).trans (by rw [beq_self_eq_true]; rfl)
      let inner : Inner (Except Fault) := ⟨mapFree, objectsWithin w mapFree n⟩
      have hbelow : ∀ a a' e, w.Meets l a → w.Meets r a' →
          Mirrors w (inner.objects a a' e) (inner.objects a' a e) := fun a a' e ha ha' =>
        ih a a' e (hnested a (World.refers_of_meets ha)) (hnested' a' (World.refers_of_meets ha'))
          (hl.step ha) (hr.step ha') (hml.step ha) (hmr.step ha')
      have hcompare : (objectsWithin w mapFree (n + 1) r l d : Comparison (Except Fault)) b.flip = _ :=
        objectsWithin_of_unbound (counterpart?_flip_of_free hfree) (isTaken_flip_of_unbound hunbound)
          htype.symm
      rw [World.schemaOf?_congr htype.symm] at hcompare
      rw [Succeeds, hcompare]
      rcases h with ⟨schema, hschema, h⟩ | ⟨hschema, h⟩
      · have hschema' := (World.schemaOf?_congr htype.symm).trans hschema
        rw [hschema]
        exact nodes_mirror (.attrs hschema hschema' hbelow) hb h
      · have hschema' := (World.schemaOf?_congr htype.symm).trans hschema
        rw [hschema]
        rcases h with ⟨rfl, rfl⟩ | ⟨hne, h⟩
        · exact if_pos rfl
        · refine (if_neg (Ne.symm hne)).trans ?_
          refine (Mirrors.contents hschema hschema' (hbelow · · d) ?_ b b' hb h).2
          intro ls rs hls hrs hlength
          exact maps_mirror hnested' hl hr hml hmr hschema hschema' hls hrs hlength (hbelow · · d)

end Equality

section

variable {κ : Type} {w : World κ} {left right : Ref} {mapFree : Bool}

theorem structuralEqual_symm (hl : w.Readable left) (hr : w.Readable right)
    (hml : w.Unordered left) (hmr : w.Unordered right)
    (h : structuralEqual w left right mapFree = .ok true) :
    structuralEqual w right left mapFree = .ok true := by
  obtain ⟨found, hfound, h⟩ := bind_eq_ok.mp h
  cases found with
  | none => exact nomatch h
  | some b =>
      let inner : Equality.Inner (Except Fault) :=
        ⟨mapFree, Equality.objectsWithin w mapFree (w.heap.cells.size + 1)⟩
      have hmirror : Equality.Mirrors w (inner.refs left right false) (inner.refs right left false) :=
        .refs fun a a' ha ha' => Equality.mirrors_objectsWithin _ a a' false
          (hl.acyclic a ha).nestedWithin (hr.acyclic a' ha').nestedWithin (ha ▸ hl) (ha' ▸ hr)
          (ha ▸ hml) (ha' ▸ hmr)
      exact bind_eq_ok.mpr ⟨_, (hmirror [] b (.nil w) hfound).2, rfl⟩

/-- Structural equality is symmetric on graphs whose maps have no order. -/
theorem structuralEqual_comm (hl : w.Readable left) (hr : w.Readable right)
    (hml : w.Unordered left) (hmr : w.Unordered right) :
    structuralEqual w left right mapFree = structuralEqual w right left mapFree := by
  obtain ⟨equal, hequal⟩ := structuralEqual_answers mapFree hl hr
  obtain ⟨equal', hequal'⟩ := structuralEqual_answers mapFree hr hl
  rw [hequal, hequal']
  congr 1
  rw [Bool.eq_iff_iff]
  constructor
  · rintro rfl
    exact Except.ok.inj (hequal'.symm.trans (structuralEqual_symm hl hr hml hmr hequal))
  · rintro rfl
    exact Except.ok.inj (hequal.symm.trans (structuralEqual_symm hr hl hmr hml hequal'))

end

/-! ## Two maps of functions, again -/

theorem namedFunctionsReversed_readable (g : Ref) : namedFunctionsReversed.Readable g :=
  functionMaps.readable rfl (by rintro entries (rfl | rfl) <;> exact List.pairwise_pair.mpr rfl)

theorem namedFunctionsReversed_unordered (g : Ref) : namedFunctionsReversed.Unordered g where
  orderFree _ hcontent := by
    rcases functionMaps.map_cases hcontent with rfl | rfl
    · exact (functionMaps.orderFree_twoEntries ⟨7⟩).perm (twoEntries_perm ⟨7⟩ ⟨2⟩)
    · exact functionMaps.orderFree_twoEntries ⟨8⟩
  keys {a entries k v} _ hcontent he := by
    have hkey : k = ⟨2⟩ ∨ k = ⟨3⟩ := by
      rcases functionMaps.map_cases hcontent with rfl | rfl
      · simp [twoEntries] at he
        tauto
      · simp [twoEntries] at he
        tauto
    rcases hkey with rfl | rfl <;> rfl

/-- The maps `{"u": "d", "d": f}` and `{"d": g, "u": "d"}` are equal in both directions. -/
theorem namedFunctionsReversed_equal :
    structuralEqual namedFunctionsReversed (some ⟨9⟩) (some ⟨10⟩) false =
      structuralEqual namedFunctionsReversed (some ⟨10⟩) (some ⟨9⟩) false ∧
    structuralEqual namedFunctionsReversed (some ⟨9⟩) (some ⟨10⟩) false = .ok true :=
  ⟨structuralEqual_comm (namedFunctionsReversed_readable _) (namedFunctionsReversed_readable _)
    (namedFunctionsReversed_unordered _) (namedFunctionsReversed_unordered _), rfl⟩

/-- The map `{"d": g, "u": y}`, in which `g` defines `y`, is equal to `{"u": x, "d": f}`, in which `f`
defines `x`, but not the other way round. -/
theorem usedBeforeDefinition_asymmetric :
    (∀ g, usedBeforeDefinition.Acyclic g) ∧
      structuralEqual usedBeforeDefinition (some ⟨10⟩) (some ⟨9⟩) false = .ok true ∧
      structuralEqual usedBeforeDefinition (some ⟨9⟩) (some ⟨10⟩) false = .ok false :=
  ⟨fun _ a _ => World.acyclicAt_of_isOrdered rfl a, rfl, rfl⟩

end ObjectRuntime
