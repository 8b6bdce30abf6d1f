import ObjectRuntime.Proofs.Reflection.Matching
set_option autoImplicit false

/-!
# Comparisons of matching graphs

A comparison of objects that a matching relation relates finds no difference.  What is bound on the
way is related (`Faithful`), so nothing is found to be bound to something else; and a variable that
has been met where it is defined is bound, or the same on both sides, when it is used.

`Passes` says this of a part of a comparison, for the variables that this part meets.
-/

namespace ObjectRuntime

open Relation (ReflTransGen TransGen)
open World (Matching Grounded Ordered ContentMatch EntryMatch KeyMatch AttrMatch RefRel placed)

namespace Equality

variable {κ α : Type} {w : World κ} {R : ObjId → ObjId → Prop} {b b' : Binding} {l r x : ObjId}
  {d mapFree : Bool} {n : Nat} {done met met' : List (ObjId × Bool)}
  {inner : Inner (Except Fault)}

/-- The variable is the same on both sides or bound. -/
def Settled (R : ObjId → ObjId → Prop) (b : Binding) (x : ObjId) : Prop :=
  R x x ∨ ∃ y, (x, y) ∈ b

/-- Only related objects are bound.  If free variables are not mapped, the variables that have been
met where they are defined are settled, and so are those defined below what is bound. -/
structure Faithful (w : World κ) (R : ObjId → ObjId → Prop) (mapFree : Bool)
    (done : List (ObjId × Bool)) (b : Binding) : Prop where
  related : ∀ {x y}, (x, y) ∈ b → R x y ∧ w.isBindable x = true
  introduced : mapFree = false → ∀ x, (x, true) ∈ done → Settled R b x
  below : mapFree = false → ∀ {x y}, (x, y) ∈ b → ∀ n d z,
    (z, true) ∈ w.occurrencesWithin n x d → Settled R b z

/-- The comparison finds no difference after `done`, and meets `met`. -/
def Passes (w : World κ) (R : ObjId → ObjId → Prop) (mapFree : Bool)
    (c : Comparison (Except Fault)) (met : List (ObjId × Bool)) : Prop :=
  ∀ done b, Faithful w R mapFree done b → (mapFree = false → Ordered R (done ++ met)) →
    ∃ b', Succeeds c b b' ∧ Faithful w R mapFree (done ++ met) b'

theorem Settled.mono (h : Settled R b x) (hb : ∀ {p}, p ∈ b → p ∈ b') : Settled R b' x :=
  h.imp_right fun ⟨y, hy⟩ => ⟨y, hb hy⟩

namespace Faithful

theorem nil (w : World κ) (R : ObjId → ObjId → Prop) (mapFree : Bool) :
    Faithful w R mapFree [] [] :=
  ⟨nofun, nofun, nofun⟩

/-- What has been met and is settled already changes nothing. -/
theorem extend (h : Faithful w R mapFree done b)
    (hmet : mapFree = false → ∀ x, (x, true) ∈ met → Settled R b x) :
    Faithful w R mapFree (done ++ met) b where
  related := h.related
  introduced hfree x hx :=
    (List.mem_append.mp hx).elim (h.introduced hfree x) (hmet hfree x)
  below := h.below

theorem left (h : Faithful w R mapFree (done ++ met) b) : Faithful w R mapFree done b where
  related := h.related
  introduced hfree x hx := h.introduced hfree x (List.mem_append_left _ hx)
  below := h.below

/-- Related objects can be bound once what is defined below them is settled. -/
theorem bind (h : Faithful w R mapFree done b) (hlr : R l r) (hl : w.isBindable l = true)
    (hbelow : mapFree = false → ∀ n d z, (z, true) ∈ w.occurrencesWithin n l d →
      Settled R ((l, r) :: b) z) : Faithful w R mapFree done ((l, r) :: b) where
  related hxy := by
    rcases List.mem_cons.mp hxy with heq | hxy
    · cases heq
      exact ⟨hlr, hl⟩
    · exact h.related hxy
  introduced hfree x hx := (h.introduced hfree x hx).mono (List.mem_cons_of_mem _)
  below hfree x y hxy n d z hz := by
    rcases List.mem_cons.mp hxy with heq | hxy
    · cases heq
      exact hbelow hfree n d z hz
    · exact (h.below hfree hxy n d z hz).mono (List.mem_cons_of_mem _)

end Faithful

/-! ## Plain values -/

/-- The same finite numbers are equal on the scale of comparisons. -/
theorem floats_equal {x y : Double} (h : x.SameNumber y) (hx : x.IsFinite) :
    ((x.sub y).abs).le tolerance = true := by
  rcases Double.sub_of_sameNumber h hx with hsub | hsub
  all_goals
    rw [hsub]
    decide +kernel

/-- Plain values that are the same are equal, unless they are floating point numbers without a finite
value. -/
theorem plainEqual_of_sameValue {v v' : Value} (hsame : World.SameValue v v')
    (hplain : v.object? = none) (hfinite : ∀ x, v = .float x → x.IsFinite) :
    plainEqual v v' = true := by
  cases v with
  | object tag id => cases hplain
  | float x =>
      cases v' with
      | float y => exact floats_equal hsame (hfinite x rfl)
      | _ => cases hsame
  | _ =>
      obtain rfl := hsame
      simp [plainEqual]

/-! ## Parts of a comparison -/

namespace Passes

theorem check : Passes w R mapFree (check true) [] :=
  fun _ b hb _ => ⟨b, rfl, by simpa using hb⟩

theorem both {first second : Comparison (Except Fault)} (hfirst : Passes w R mapFree first met)
    (hsecond : Passes w R mapFree second met') :
    Passes w R mapFree (both first second) (met ++ met') := by
  intro done b hb hordered
  rw [← List.append_assoc] at hordered ⊢
  obtain ⟨b₁, h₁, hb₁⟩ := hfirst done b hb fun hfree => (hordered hfree).left
  obtain ⟨b₂, h₂, hb₂⟩ := hsecond _ b₁ hb₁ hordered
  exact ⟨b₂, bind_eq_ok.mpr ⟨_, h₁, h₂⟩, hb₂⟩

theorem all {f : α → Comparison (Except Fault)} {occ : α → List (ObjId × Bool)} {as : List α}
    (h : ∀ a ∈ as, Passes w R mapFree (f a) (occ a)) :
    Passes w R mapFree (all f as) (as.flatMap occ) := by
  induction as with
  | nil => exact check
  | cons a as ih =>
      exact both (h a List.mem_cons_self) (ih fun a' ha' => h a' (List.mem_cons_of_mem _ ha'))

/-- Lists whose elements are compared one by one. -/
theorem zip {β : Type} {P : α → β → Prop} {f : α × β → Comparison (Except Fault)}
    {occ : α → List (ObjId × Bool)} {as : List α} {bs : List β} (hrel : List.Forall₂ P as bs)
    (h : ∀ a ∈ as, ∀ b, P a b → Passes w R mapFree (f (a, b)) (occ a)) :
    Passes w R mapFree (Equality.all f (as.zip bs)) (as.flatMap occ) := by
  induction hrel with
  | nil => exact check
  | @cons a b as bs hab _ ih =>
      exact both (h a List.mem_cons_self b hab)
        (ih fun a' ha' => h a' (List.mem_cons_of_mem _ ha'))

/-- A comparison that does as another one passes with it. -/
theorem congr {c c' : Comparison (Except Fault)} (h : Passes w R mapFree c met)
    (heq : ∀ b, c' b = c b) : Passes w R mapFree c' met := by
  intro done b hb hordered
  obtain ⟨b', hc, hb'⟩ := h done b hb hordered
  exact ⟨b', (heq b).trans hc, hb'⟩

end Passes

/-! ## Keys -/

/-- A key of the left map corresponds to the keys that are the same as its counterpart. -/
theorem sameKey_keyFor_of_match {plain : Value → Value → Prop} (hm : Matching w R plain)
    (hb : ∀ {x y}, (x, y) ∈ b → R x y ∧ w.isBindable x = true) {k k' : Ref}
    (hk : KeyMatch w R k k') (x : Ref) :
    w.sameKey x (Inner.keyFor w k b) = w.sameKey x k' := by
  obtain ⟨hrel, hk⟩ := hk
  cases htext : w.keyText? k with
  | some s =>
      have htext' : w.keyText? k' = some s := by
        rcases hk with rfl | ⟨t, ht, ht'⟩
        · exact htext
        · exact ht'.trans (ht.symm.trans htext)
      have hself : Inner.keyFor w k' b = k' := by
        cases k' with
        | none => cases htext'
        | some id => simp [Inner.keyFor, show w.text? id = some s from htext']
      rw [sameKey_keyFor htext, ← sameKey_keyFor (b := b) htext', hself]
  | none =>
      have hnone : ¬ ∃ s, w.keyText? k = some s ∧ w.keyText? k' = some s := by simp [htext]
      obtain rfl : k = k' := hk.resolve_right hnone
      congr 1
      cases k with
      | none => rfl
      | some id =>
          have hplain : w.text? id = none := htext
          simp only [Inner.keyFor, hplain, Option.isSome_none, Bool.false_eq_true, if_false]
          cases hbound : b.counterpart? id with
          | none => rfl
          | some c =>
              obtain ⟨hc, hid⟩ := hb (mem_of_lookup hbound)
              rw [Option.getD_some, (hm.oneToOne hc hrel hid hid).mp rfl]

/-! ## Objects -/

section Parts

variable {plain : Value → Value → Prop}

/-- What an object holds passes. -/
def InnerPasses (w : World κ) (R : ObjId → ObjId → Prop) (n : Nat) (inner : Inner (Except Fault))
    (l : ObjId) : Prop :=
  ∀ a a' d, w.Meets l a → R a a' →
    Passes w R inner.map (inner.objects a a' d) (w.occurrencesWithin n a d)

theorem Passes.refs {left right : Ref} (hinner : InnerPasses w R n inner l)
    (hmeets : ∀ a, left = some a → w.Meets l a) (hrel : RefRel R left right) (d : Bool) :
    Passes w R inner.map (inner.refs left right d) (w.occurrencesAt n d left) := by
  cases left with
  | none =>
      cases right with
      | none => exact check
      | some r => exact hrel.elim
  | some a =>
      cases right with
      | none => exact hrel.elim
      | some a' =>
          rw [World.occurrencesAt_some]
          exact hinner a a' d (hmeets a rfl) hrel

theorem Passes.attr (hplain : ∀ {v v'}, plain v v' → plainEqual v v' = true)
    (hinner : InnerPasses w R n inner l) {attr attr' : Attr} (hattr : attr ∈ w.shown l)
    (hmatch : AttrMatch R plain attr attr') :
    Passes w R inner.map (inner.attr (attr, attr'))
      (w.occurrencesAt n attr.isDefinition attr.value.object?) := by
  obtain ⟨hkey, -, hrel, hsame⟩ := hmatch
  refine (Passes.refs hinner (fun a => World.meets_of_attr hattr) hrel attr.isDefinition).congr
    fun b => ?_
  simp only [Inner.attr, hkey, if_true, Inner.values]
  cases hv : attr.value.object? with
  | some a =>
      cases hv' : attr'.value.object? with
      | some a' => rfl
      | none => simp [hv, hv', RefRel] at hrel
  | none =>
      cases hv' : attr'.value.object? with
      | some a' => simp [hv, hv', RefRel] at hrel
      | none => simp [hplain (hsame hv), Inner.refs]

theorem Passes.attrs (hm : Matching w R plain)
    (hplain : ∀ {v v'}, plain v v' → plainEqual v v' = true) (hinner : InnerPasses w R n inner l)
    (hlr : R l r) (hschema : w.schemaOf? l ≠ none) (d : Bool) :
    Passes w R inner.map (inner.attrs w l r) (w.occurrencesIn n l d) := by
  have hattrs := hm.attrs hlr hschema
  rw [World.occurrencesIn_attrs hschema]
  refine (Passes.zip hattrs fun a ha a' haa' => Passes.attr hplain hinner ha haa').congr fun b => ?_
  rw [Inner.attrs_eq inner hschema (hm.schemaOf? hlr ▸ hschema), if_pos hattrs.length_eq]

/-- The variables below a key are settled: it is the same on both sides, or a string. -/
theorem settled_of_key (hm : Matching w R plain) (hg : Grounded w R) {k k' : Ref}
    (hk : KeyMatch w R k k') (hx : (x, true) ∈ w.occurrencesAt n d k) : Settled R b x := by
  obtain ⟨hrel, hk⟩ := hk
  cases k with
  | none => cases hx
  | some a =>
      cases k' with
      | none => exact hrel.elim
      | some a' =>
          rw [World.occurrencesAt_some] at hx
          rcases hk with heq | ⟨s, hs, -⟩
          · obtain rfl := Option.some.inj heq
            exact .inl (hm.same_of_reaches hrel (World.reaches_of_mem_occurrencesWithin hx).1)
          · have hcontent : w.payload? a = some (.text s) := World.payload?_of_text? hs
            have hschema := hg.strings hrel hcontent
            cases n with
            | zero => cases hx
            | succ n =>
                rw [World.occurrencesWithin_succ, World.not_isVariable hschema,
                  World.occurrencesIn_leaf hschema hcontent nofun nofun] at hx
                cases hx

theorem Passes.entry (hm : Matching w R plain) (hg : inner.map = false → Grounded w R)
    (hinner : InnerPasses w R n inner l) {entries' : List (Ref × Ref)} {e e' : Ref × Ref}
    (hvalue : ∀ a, e.2 = some a → w.Meets l a) (he' : e' ∈ entries')
    (hdistinct : entries'.Pairwise fun e e' => w.sameKey e.1 e'.1 = false)
    (hmatch : EntryMatch w R e e') (d : Bool) :
    Passes w R inner.map (inner.entry w entries' d e)
      (w.occurrencesAt n false e.1 ++ w.occurrencesAt n d e.2) := by
  intro done b hb hordered
  have hkey : Faithful w R inner.map (done ++ w.occurrencesAt n false e.1) b :=
    hb.extend fun hfree x hx => settled_of_key hm (hg hfree) hmatch.1 hx
  rw [← List.append_assoc] at hordered ⊢
  obtain ⟨b', hc, hb'⟩ := Passes.refs hinner hvalue hmatch.2 d _ b hkey hordered
  refine ⟨b', (Inner.entry_of_find? ?_).trans hc, hb'⟩
  simp only [sameKey_keyFor_of_match hm hb.related hmatch.1]
  exact World.find?_entry hdistinct he'

theorem Passes.contents (hm : Matching w R plain) (hg : inner.map = false → Grounded w R)
    (hinner : InnerPasses w R n inner l) (hlr : R l r) (hne : l ≠ r)
    (hschema : w.schemaOf? l = none) (d : Bool) :
    Passes w R inner.map (inner.contents w l r d) (w.occurrencesIn n l d) := by
  cases hm.content hlr hschema with
  | text s left right =>
      rw [World.occurrencesIn_leaf hschema left nofun nofun]
      exact check.congr fun b => by simp [Inner.contents, left, right]
  | shape dims left right =>
      rw [World.occurrencesIn_leaf hschema left nofun nofun]
      exact check.congr fun b => by simp [Inner.contents, left, right]
  | array elems elems' left right related =>
      rw [World.occurrencesIn_array hschema left]
      refine (Passes.zip (f := fun p => inner.refs p.1 p.2 d) related fun e he e' hee' =>
        Passes.refs hinner (fun a ha => ?_) hee' d).congr
          fun b => by simp only [Inner.contents, left, right, if_pos related.length_eq]
      exact World.meets_of_element hschema left (ha ▸ he)
  | map entries entries' left right distinct related =>
      rw [World.occurrencesIn_map hschema left]
      refine (Passes.all (f := inner.entry w entries' d) fun e he => ?_).congr
        fun b => by simp only [Inner.contents, left, right, if_pos related.length_eq]
      obtain ⟨e', he', hmatch⟩ := exists_mem_of_forall₂_left related he
      exact Passes.entry hm hg hinner
        (fun a ha => World.meets_of_entry hschema left he (.inr ha)) he' distinct hmatch d
  | tensor t t' data left right dtype shape bytes bytes' =>
      rw [World.occurrencesIn_leaf hschema left nofun nofun]
      refine check.congr fun b => ?_
      have hequal : tensorsEqual w l r = .ok true := by
        simp [tensorsEqual, World.tensor?, left, right, dtype, shape, bytes, bytes', bind,
          Except.bind, pure, Except.pure]
      simp only [Inner.contents, left, right, hequal]
      rfl
  | other same content => exact absurd same hne

/-- Objects that are the same on both sides need no look. -/
theorem Faithful.same (hb : Faithful w R mapFree done b) (hm : Matching w R plain) (hl : R l l) :
    Faithful w R mapFree (done ++ w.occurrencesWithin n l d) b :=
  hb.extend fun _ _ hx => .inl (hm.same_of_reaches hl (World.reaches_of_mem_occurrencesWithin hx).1)

/-- A variable that is not the same on both sides stands where it can be bound: one that is used
before it is defined is the same, and one that has been defined is bound already. -/
theorem mapped_of_unbound (hm : Matching w R plain) (hb : Faithful w R mapFree done b)
    (hordered : mapFree = false → Ordered R (done ++ [(l, d)])) (hlr : R l r) (hne : l ≠ r)
    (hl : w.isBindable l = true) (hunbound : b.counterpart? l = none) :
    (mapFree || d) = true := by
  by_contra hneither
  simp only [Bool.or_eq_true, not_or, Bool.not_eq_true] at hneither
  obtain ⟨rfl, rfl⟩ := hneither
  have hself : R l l := by
    by_cases hdone : (l, true) ∈ done
    · rcases hb.introduced rfl l hdone with hself | ⟨y, hy⟩
      · exact hself
      · exact absurd hy (not_mem_of_unbound hunbound)
    · exact hordered rfl done l [] rfl hdone
  exact hne ((hm.oneToOne hself hlr hl hl).mp rfl)

theorem Passes.treeNode (hm : Matching w R plain)
    (hplain : ∀ {v v'}, plain v v' → plainEqual v v' = true) (hinner : InnerPasses w R n inner l)
    (hlr : R l r) (hschema : w.schemaOf? l ≠ none) (hvar : w.isVariable l = false) (d : Bool) :
    Passes w R inner.map (inner.nodes w .tree l r d) (w.occurrencesWithin (n + 1) l d) := by
  intro done b hb hordered
  by_cases heq : l = r
  · subst heq
    exact ⟨b, by simp [Inner.nodes, Succeeds, Equality.check, pure, Except.pure], hb.same hm hlr⟩
  · rw [World.occurrencesWithin_succ, hvar] at hordered ⊢
    obtain ⟨b', hc, hb'⟩ := Passes.attrs hm hplain hinner hlr hschema d done b hb hordered
    exact ⟨b', by simpa [Inner.nodes, heq] using hc, hb'⟩

/-- What is defined below a graph node is settled when the node is bound. -/
theorem Passes.graphNode (hm : Matching w R plain)
    (hplain : ∀ {v v'}, plain v v' → plainEqual v v' = true) (hinner : InnerPasses w R n inner l)
    (hlr : R l r) (hnested : w.NestedWithin (n + 1) l) (hschema : w.schemaOf? l ≠ none)
    (hvar : w.isVariable l = false) (hl : w.isBindable l = true) (d : Bool) :
    Passes w R inner.map (inner.nodes w .graph l r d) (w.occurrencesWithin (n + 1) l d) := by
  intro done b hb hordered
  have hmet : w.occurrencesWithin (n + 1) l d = w.occurrencesIn n l d := by
    rw [World.occurrencesWithin_succ, hvar]
    rfl
  rw [hmet] at hordered ⊢
  obtain ⟨b', hc, hb'⟩ := Passes.attrs hm hplain hinner hlr hschema d done b hb hordered
  refine ⟨(l, r) :: b', bind_eq_ok.mpr ⟨_, hc, rfl⟩, hb'.bind hlr hl fun hfree m e z hz => ?_⟩
  rw [World.occurrencesWithin_of_reflected (e := d) hschema hvar] at hz
  have hz := hmet ▸ World.mem_occurrencesWithin hnested hz
  exact (hb'.introduced hfree z (List.mem_append_right _ hz)).mono (List.mem_cons_of_mem _)

/-- No variables are met in a variable. -/
theorem occurrencesIn_variable (hg : Grounded w R) (hlr : R l r) (hvar : w.isVariable l = true) :
    w.occurrencesIn n l d = [] := by
  refine List.eq_nil_iff_forall_not_mem.mpr fun p hp => ?_
  obtain ⟨q, hq, hp⟩ := List.mem_flatMap.mp hp
  obtain ⟨hreach, hpvar⟩ := World.reaches_of_mem_occurrencesWithin (x := p.1) (e := p.2) hp
  rw [hg.flat hlr hvar (.head' ⟨d, q.2, hq⟩ hreach)] at hpvar
  cases hpvar

theorem Passes.variable (hm : Matching w R plain)
    (hplain : ∀ {v v'}, plain v v' → plainEqual v v' = true)
    (hg : inner.map = false → Grounded w R) (hinner : InnerPasses w R n inner l) (hlr : R l r)
    (hschema : w.schemaOf? l ≠ none) (hvar : w.isVariable l = true)
    (hl : w.isBindable l = true) (hb : Faithful w R inner.map done b)
    (hordered : inner.map = false → Ordered R (done ++ [(l, d)]))
    (hunbound : b.counterpart? l = none) :
    ∃ b', Succeeds (inner.nodes w .variable l r d) b b' ∧
      Faithful w R inner.map (done ++ [(l, d)]) b' := by
  by_cases heq : l = r
  · subst heq
    refine ⟨b, by simp [Inner.nodes, Succeeds, Equality.check, pure, Except.pure],
      hb.extend fun _ x hx => ?_⟩
    cases List.mem_singleton.mp hx
    exact .inl hlr
  · have hmapped := mapped_of_unbound hm hb hordered hlr heq hl hunbound
    obtain ⟨b', hc, hb'⟩ := Passes.attrs hm hplain hinner hlr hschema d done b hb fun hfree => by
      rw [occurrencesIn_variable (hg hfree) hlr hvar, List.append_nil]
      exact (hordered hfree).left
    have hsettled : Settled R ((l, r) :: b') l := .inr ⟨r, List.mem_cons_self⟩
    have hbound : Faithful w R inner.map done ((l, r) :: b') :=
      hb'.left.bind hlr hl fun _ m e z hz => by
        cases m with
        | zero => cases hz
        | succ m =>
            rw [World.occurrencesWithin_succ, hvar] at hz
            cases List.mem_singleton.mp hz
            exact hsettled
    refine ⟨(l, r) :: b', ?_, hbound.extend fun _ x hx => ?_⟩
    · simp only [Inner.nodes, if_neg heq, if_pos hmapped]
      exact bind_eq_ok.mpr ⟨_, hc, rfl⟩
    · cases List.mem_singleton.mp hx
      exact hsettled

theorem nodes_succeed (hm : Matching w R plain)
    (hplain : ∀ {v v'}, plain v v' → plainEqual v v' = true)
    (hg : inner.map = false → Grounded w R) (hinner : InnerPasses w R n inner l) (hlr : R l r)
    (hnested : w.NestedWithin (n + 1) l) {schema : Schema} (hschema : w.schemaOf? l = some schema)
    (hb : Faithful w R inner.map done b)
    (hordered : inner.map = false → Ordered R (done ++ w.occurrencesWithin (n + 1) l d))
    (hunbound : b.counterpart? l = none) :
    ∃ b', Succeeds (inner.nodes w schema.kind l r d) b b' ∧
      Faithful w R inner.map (done ++ w.occurrencesWithin (n + 1) l d) b' := by
  have hreflected : w.schemaOf? l ≠ none := by simp [hschema]
  have hvar := World.isVariable_eq hschema
  have hl : w.isBindable l = decide (schema.kind ≠ .tree) := by
    simp [World.isBindable, hschema]
  cases hkind : schema.kind with
  | tree =>
      rw [hkind] at hvar
      exact Passes.treeNode hm hplain hinner hlr hreflected hvar d done b hb hordered
  | graph =>
      rw [hkind] at hvar hl
      exact Passes.graphNode hm hplain hinner hlr hnested hreflected hvar hl d done b hb hordered
  | «variable» =>
      rw [hkind] at hvar hl
      rw [World.occurrencesWithin_succ, hvar] at hordered ⊢
      exact Passes.variable hm hplain hg hinner hlr hreflected hvar hl hb hordered hunbound

end Parts

/-- An object that is bound is compared with its counterpart. -/
theorem objectsWithin_of_bound {c : ObjId} (hbound : b.counterpart? l = some c) :
    (objectsWithin w mapFree (n + 1) l r d : Comparison (Except Fault)) b = check (c == r) b := by
  simp only [objectsWithin, hbound]

/-- An object that is not bound is not compared with one that is, nor with one of another type. -/
theorem objectsWithin_of_barred (hunbound : b.counterpart? l = none)
    (hbarred : b.isTaken r = true ∨ w.typeIndex l ≠ w.typeIndex r) :
    (objectsWithin w mapFree (n + 1) l r d : Comparison (Except Fault)) b = .ok none := by
  have hbarred : (b.isTaken r || w.typeIndex l != w.typeIndex r) = true := by
    rwa [Bool.or_eq_true, bne_iff_ne]
  simp only [objectsWithin, hunbound, hbarred, if_true]
  rfl

/-- Two objects of one type of which neither is bound are compared in the way of their kind. -/
theorem objectsWithin_of_unbound (hunbound : b.counterpart? l = none)
    (hfree : b.isTaken r = false) (htype : w.typeIndex l = w.typeIndex r) :
    (objectsWithin w mapFree (n + 1) l r d : Comparison (Except Fault)) b =
      match w.schemaOf? l with
      | some schema => Inner.nodes ⟨mapFree, objectsWithin w mapFree n⟩ w schema.kind l r d b
      | none =>
        if l = r then .ok (some b)
        else Inner.contents ⟨mapFree, objectsWithin w mapFree n⟩ w l r d b := by
  simp only [objectsWithin, hunbound, hfree, htype, bne_self_eq_false, Bool.or_false]
  cases w.schemaOf? l <;> rfl

/-- A comparison of related objects passes. -/
theorem passes_objectsWithin {plain : Value → Value → Prop} (hm : Matching w R plain)
    (hplain : ∀ {v v'}, plain v v' → plainEqual v v' = true)
    (hg : mapFree = false → Grounded w R) (n : Nat) :
    ∀ l r d, w.NestedWithin n l → R l r →
      Passes w R mapFree (objectsWithin w mapFree n l r d) (w.occurrencesWithin n l d) := by
  induction n with
  | zero => exact fun _ _ _ hnested => hnested.elim
  | succ n ih =>
      intro l r d hnested hlr done b hb hordered
      cases hbound : b.counterpart? l with
      | some c =>
          have hmem := mem_of_lookup hbound
          obtain ⟨hlc, hl⟩ := hb.related hmem
          obtain rfl : c = r := (hm.oneToOne hlc hlr hl hl).mp rfl
          refine ⟨b, ?_, hb.extend fun hfree x hx => hb.below hfree hmem _ _ x hx⟩
          exact (objectsWithin_of_bound hbound).trans (by rw [beq_self_eq_true]; rfl)
      | none =>
          have htype := hm.typeIndex hlr
          have hfree : b.isTaken r = false := by
            refine List.any_eq_false.mpr fun p hp heq => ?_
            obtain rfl : p.2 = r := by simpa using heq
            obtain ⟨hpr, hp₁⟩ := hb.related hp
            have hl : w.isBindable l = true :=
              (World.isBindable_congr (htype.trans (hm.typeIndex hpr).symm)).trans hp₁
            obtain rfl := (hm.oneToOne hpr hlr hp₁ hl).mpr rfl
            exact not_mem_of_unbound hbound hp
          have heq : (objectsWithin w mapFree (n + 1) l r d : Comparison (Except Fault)) b = _ :=
            objectsWithin_of_unbound hbound hfree htype
          have hinner : InnerPasses w R n ⟨mapFree, objectsWithin w mapFree n⟩ l :=
            fun a a' e ha haa' => ih a a' e (hnested a (World.refers_of_meets ha)) haa'
          simp only [Succeeds, heq]
          cases hschema : w.schemaOf? l with
          | some schema =>
              exact nodes_succeed hm hplain hg hinner hlr hnested hschema hb hordered hbound
          | none =>
              rcases eq_or_ne l r with rfl | hne
              · exact ⟨b, by simp, hb.same hm hlr⟩
              · rw [World.occurrencesWithin_succ, World.not_isVariable hschema] at hordered ⊢
                simp only [if_neg hne]
                exact Passes.contents hm hg hinner hlr hne hschema d done b hb hordered

end Equality

/-- Graphs that a matching relation relates are equal.  Unless free variables are mapped, every
variable that is used before it is defined has to be the same in both. -/
theorem structuralEqual_of_matching {κ : Type} {w : World κ} {R : ObjId → ObjId → Prop}
    {plain : Value → Value → Prop} {mapFree : Bool} {left right : Ref} (hm : Matching w R plain)
    (hplain : ∀ {v v'}, plain v v' → Equality.plainEqual v v' = true)
    (hg : mapFree = false → Grounded w R ∧ Ordered R (w.occurrences left))
    (hacyclic : w.Acyclic left) (hrel : RefRel R left right) :
    structuralEqual w left right mapFree = .ok true := by
  cases left with
  | none =>
      cases right with
      | none => rfl
      | some r => exact hrel.elim
  | some l =>
      cases right with
      | none => exact hrel.elim
      | some r =>
          obtain ⟨b, hb, -⟩ := Equality.passes_objectsWithin hm hplain (fun hfree => (hg hfree).1)
            (w.heap.cells.size + 1) l r false (hacyclic l rfl).nestedWithin hrel [] []
            (.nil w R mapFree) fun hfree => by simpa [World.occurrences] using (hg hfree).2
          exact bind_eq_ok.mpr ⟨some b, hb, rfl⟩

end ObjectRuntime
