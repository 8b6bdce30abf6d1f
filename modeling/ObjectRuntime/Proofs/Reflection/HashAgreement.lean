import ObjectRuntime.Proofs.Reflection.Matching
import ObjectRuntime.Reflection.Hash
set_option autoImplicit false

/-!
# Hashes of matching graphs

Objects that a matching relation relates have the same hash.  Two traversals, of the one graph and of
the other, remember the same hashes of related objects and have met as many variables (`Alike`).  A
variable that is hashed by its place is the same in both graphs: it has not been met where it is
defined, as it would be remembered then.

`Agrees` says of two parts of such traversals that they find the same hash.
-/

namespace ObjectRuntime

open Relation (ReflTransGen TransGen)
open World (Matching Ordered ContentMatch EntryMatch AttrMatch RefRel placed)

namespace Hashing

variable {κ α β : Type} {w : World κ} {R : ObjId → ObjId → Prop} {l r x : ObjId}
  {d mapFree : Bool} {n : Nat} {done met met' : List (ObjId × Bool)} {m m' : Memory}
  {inner : Inner (Except Fault)} {hash : UInt64}

/-- A hash of the object is remembered. -/
def Memory.Knows (m : Memory) (x : ObjId) : Prop := x ∈ m.found.map Prod.fst

/-- Two traversals remember the same of related objects.  If free variables are not mapped, they
remember the variables that have been met where they are defined, and those that are defined below
what they remember. -/
structure Alike (w : World κ) (R : ObjId → ObjId → Prop) (mapFree : Bool)
    (done : List (ObjId × Bool)) (m m' : Memory) : Prop where
  found : List.Forall₂ (fun p p' => R p.1 p'.1 ∧ w.isBindable p.1 = true ∧ p.2 = p'.2)
    m.found m'.found
  seen : m.seen = m'.seen
  introduced : mapFree = false → ∀ x, (x, true) ∈ done → m.Knows x
  below : mapFree = false → ∀ x, m.Knows x → ∀ n d z,
    (z, true) ∈ w.occurrencesWithin n x d → m.Knows z

/-- After `done`, both traversals meet the variables `met` and find the same hash. -/
def Agrees (w : World κ) (R : ObjId → ObjId → Prop) (mapFree : Bool)
    (c c' : Hashed (Except Fault)) (met : List (ObjId × Bool)) : Prop :=
  ∀ done m m', Alike w R mapFree done m m' → (mapFree = false → Ordered R (done ++ met)) →
    ∃ h m₁ m₁', c m = .ok (h, m₁) ∧ c' m' = .ok (h, m₁') ∧ Alike w R mapFree (done ++ met) m₁ m₁'

theorem Memory.knows_of_lookup (h : m.found.lookup x = some hash) : m.Knows x :=
  List.mem_map.mpr ⟨_, mem_of_lookup h, rfl⟩

theorem Memory.not_knows (h : m.found.lookup x = none) : ¬ m.Knows x := by
  intro hx
  obtain ⟨p, hp, rfl⟩ := List.mem_map.mp hx
  have hne := List.lookup_eq_none_iff.mp h p hp
  simp at hne

namespace Alike

theorem nil (w : World κ) (R : ObjId → ObjId → Prop) (mapFree : Bool) :
    Alike w R mapFree [] ⟨[], 0⟩ ⟨[], 0⟩ :=
  ⟨.nil, rfl, nofun, nofun⟩

theorem extend (h : Alike w R mapFree done m m')
    (hmet : mapFree = false → ∀ x, (x, true) ∈ met → m.Knows x) :
    Alike w R mapFree (done ++ met) m m' :=
  { h with
    introduced := fun hfree x hx =>
      (List.mem_append.mp hx).elim (h.introduced hfree x) (hmet hfree x) }

/-- Both traversals remember a hash of related objects. -/
theorem remember (h : Alike w R mapFree done m m') (hlr : R l r) (hl : w.isBindable l = true)
    (hbelow : mapFree = false → ∀ n d z, (z, true) ∈ w.occurrencesWithin n l d →
      z = l ∨ m.Knows z) {seen seen' : UInt64} (hseen : seen = seen') :
    Alike w R mapFree done ⟨(l, hash) :: m.found, seen⟩ ⟨(r, hash) :: m'.found, seen'⟩ where
  found := .cons ⟨hlr, hl, rfl⟩ h.found
  seen := hseen
  introduced hfree x hx := List.mem_cons_of_mem _ (h.introduced hfree x hx)
  below hfree x hx n d z hz := by
    rcases List.mem_cons.mp hx with rfl | hx
    · exact List.mem_cons.mpr (hbelow hfree n d z hz)
    · exact List.mem_cons_of_mem _ (h.below hfree x hx n d z hz)

/-- Of related objects the same is remembered. -/
theorem lookup {plain : Value → Value → Prop} (h : Alike w R mapFree done m m')
    (hm : Matching w R plain) (hlr : R l r) : m.found.lookup l = m'.found.lookup r := by
  have hfound := h.found
  generalize m.found = found, m'.found = found' at hfound
  induction hfound with
  | nil => rfl
  | @cons p p' found found' hp _ ih =>
      obtain ⟨a, h₁⟩ := p
      obtain ⟨b, h₂⟩ := p'
      obtain ⟨hab, ha, rfl⟩ := hp
      have hsame : l = a ↔ r = b := by
        constructor
        · rintro rfl
          exact (hm.oneToOne hlr hab ha ha).mp rfl
        · rintro rfl
          refine (hm.oneToOne hlr hab ?_ ha).mpr rfl
          exact (World.isBindable_congr ((hm.typeIndex hlr).trans (hm.typeIndex hab).symm)).trans ha
      rw [lookup_cons_eq, lookup_cons_eq, ih]
      by_cases hla : l = a
      · rw [if_pos hla, if_pos (hsame.mp hla)]
      · rw [if_neg hla, if_neg (hla ∘ hsame.mpr)]

end Alike

/-! ## Parts of a traversal -/

/-- A step on the state goes on where the first one ended. -/
theorem bind_run {c : StateT Memory (Except Fault) α} {f : α → StateT Memory (Except Fault) β}
    {a : α} {m₁ : Memory} (h : c m = .ok (a, m₁)) : (c >>= f) m = f a m₁ := by
  simp only [bind, StateT.bind, h]
  rfl

namespace Agrees

theorem pure (hash : UInt64) : Agrees w R mapFree (pure hash) (pure hash) [] :=
  fun _ m m' h _ => ⟨hash, m, m', rfl, rfl, by simpa using h⟩

theorem bind {c c' : Hashed (Except Fault)} {f f' : UInt64 → Hashed (Except Fault)}
    (h : Agrees w R mapFree c c' met) (hf : ∀ hash, Agrees w R mapFree (f hash) (f' hash) met') :
    Agrees w R mapFree (c >>= f) (c' >>= f') (met ++ met') := by
  intro done m m' hm hordered
  rw [← List.append_assoc] at hordered ⊢
  obtain ⟨hash, m₁, m₁', hc, hc', hm₁⟩ := h done m m' hm fun hfree => (hordered hfree).left
  rw [bind_run hc, bind_run hc']
  exact hf hash _ m₁ m₁' hm₁ hordered

/-- A hash that is changed in the same way on both sides. -/
theorem map {c c' : Hashed (Except Fault)} (h : Agrees w R mapFree c c' met)
    (f : UInt64 → UInt64) :
    Agrees w R mapFree (do return f (← c)) (do return f (← c')) met := by
  simpa using h.bind fun hash => Agrees.pure (f hash)

/-- Lists whose elements are mixed in one by one. -/
theorem fold {P : α → β → Prop} {f : UInt64 → α → Hashed (Except Fault)}
    {g : UInt64 → β → Hashed (Except Fault)} {occ : α → List (ObjId × Bool)} {as : List α}
    {bs : List β} (hrel : List.Forall₂ P as bs)
    (h : ∀ a ∈ as, ∀ b, P a b → ∀ hash, Agrees w R mapFree (f hash a) (g hash b) (occ a))
    (hash : UInt64) :
    Agrees w R mapFree (as.foldlM f hash) (bs.foldlM g hash) (as.flatMap occ) := by
  induction hrel generalizing hash with
  | nil => exact Agrees.pure hash
  | @cons a b as bs hab _ ih =>
      exact (h a List.mem_cons_self b hab hash).bind fun hash =>
        ih (fun a' ha' => h a' (List.mem_cons_of_mem _ ha')) hash

end Agrees

/-! ## Objects -/

/-- A world at rest is asked for attributes without a trace. -/
theorem attrs_eq_pure (w : World κ) (id : ObjId) :
    (Inquiry.attrs w id : StateT Memory (Except Fault) _) = pure (w.attrs id) := by
  have hask : ∀ ids : List ObjId, ids.forM (fun id =>
      (Inquiry.ask (.classes id Run.travelClasses) : StateT Memory (Except Fault) Unit)) =
        pure () := by
    intro ids
    induction ids with
    | nil => rfl
    | cons id ids ih => exact ih
  simp only [Inquiry.attrs, hask]
  rfl

section Parts

variable {plain : Value → Value → Prop}

/-- What two objects hold agrees. -/
def InnerAgrees (w : World κ) (R : ObjId → ObjId → Prop) (mapFree : Bool) (n : Nat)
    (inner : Inner (Except Fault)) (l : ObjId) : Prop :=
  ∀ a a' d, w.Meets l a → R a a' →
    Agrees w R mapFree (inner a d) (inner a' d) (w.occurrencesWithin n a d)

theorem Agrees.ref {left right : Ref} (hinner : InnerAgrees w R mapFree n inner l)
    (hmeets : ∀ a, left = some a → w.Meets l a) (hrel : RefRel R left right) (d : Bool) :
    Agrees w R mapFree (inner.ref left d) (inner.ref right d) (w.occurrencesAt n d left) := by
  cases left with
  | none =>
      cases right with
      | none => exact Agrees.pure 0
      | some r => exact hrel.elim
  | some a =>
      cases right with
      | none => exact hrel.elim
      | some a' =>
          rw [World.occurrencesAt_some]
          exact hinner a a' d (hmeets a rfl) hrel

theorem Agrees.attr (hplain : ∀ {v v'}, plain v v' → ofPlain v = ofPlain v')
    (hinner : InnerAgrees w R mapFree n inner l) {attr attr' : Attr} (hattr : attr ∈ w.shown l)
    (hmatch : AttrMatch R plain attr attr') (hash : UInt64) :
    Agrees w R mapFree (inner.attr hash attr) (inner.attr hash attr')
      (w.occurrencesAt n attr.isDefinition attr.value.object?) := by
  obtain ⟨hkey, hplace, hrel, hsame⟩ := hmatch
  have hvalue : Agrees w R mapFree (inner.value attr.value attr.isDefinition)
      (inner.value attr'.value attr'.isDefinition)
      (w.occurrencesAt n attr.isDefinition attr.value.object?) := by
    have href := Agrees.ref hinner (fun a => World.meets_of_attr hattr) hrel attr.isDefinition
    rw [← hplace]
    unfold Inner.value
    cases hv : attr.value.object? with
    | some a =>
        cases hv' : attr'.value.object? with
        | some a' => rwa [hv, hv'] at href
        | none => simp [hv, hv', RefRel] at hrel
    | none =>
        cases hv' : attr'.value.object? with
        | some a' => simp [hv, hv', RefRel] at hrel
        | none =>
            rw [hplain (hsame hv)]
            exact Agrees.pure _
  unfold Inner.attr
  rw [hkey]
  exact hvalue.map _

theorem Agrees.attrs (hm : Matching w R plain)
    (hplain : ∀ {v v'}, plain v v' → ofPlain v = ofPlain v')
    (hinner : InnerAgrees w R mapFree n inner l) (hlr : R l r) (hschema : w.schemaOf? l ≠ none)
    (hash : UInt64) (d : Bool) :
    Agrees w R mapFree (inner.attrs w hash l) (inner.attrs w hash r) (w.occurrencesIn n l d) := by
  obtain ⟨schema, hl⟩ := Option.ne_none_iff_exists'.mp hschema
  have hr := (hm.schemaOf? hlr).symm.trans hl
  rw [World.occurrencesIn_attrs hschema]
  simp only [Inner.attrs, attrs_eq_pure, World.attrs_eq_shown hl, World.attrs_eq_shown hr,
    pure_bind]
  exact Agrees.fold (hm.attrs hlr hschema)
    (fun a ha a' haa' => Agrees.attr hplain hinner ha haa') hash

theorem Agrees.entry (hinner : InnerAgrees w R mapFree n inner l) {e e' : Ref × Ref}
    (hmeets : ∀ a, e.1 = some a ∨ e.2 = some a → w.Meets l a) (hmatch : EntryMatch w R e e')
    (d : Bool) :
    Agrees w R mapFree (inner.entry d e) (inner.entry d e')
      (w.occurrencesAt n false e.1 ++ w.occurrencesAt n d e.2) :=
  (Agrees.ref hinner (fun a ha => hmeets a (.inl ha)) hmatch.1.1 false).bind fun _ =>
    (Agrees.ref hinner (fun a ha => hmeets a (.inr ha)) hmatch.2 d).map _

theorem Agrees.content (hm : Matching w R plain) (hinner : InnerAgrees w R mapFree n inner l)
    (hlr : R l r) (hschema : w.schemaOf? l = none) (hash : UInt64) (d : Bool) :
    Agrees w R mapFree (inner.content w hash l d) (inner.content w hash r d)
      (w.occurrencesIn n l d) := by
  unfold Inner.content
  cases hm.content hlr hschema with
  | text s left right =>
      rw [World.occurrencesIn_leaf hschema left nofun nofun, left, right]
      exact Agrees.pure _
  | shape dims left right =>
      rw [World.occurrencesIn_leaf hschema left nofun nofun, left, right]
      exact Agrees.pure _
  | array elems elems' left right related =>
      rw [World.occurrencesIn_array hschema left]
      simp only [left, right, related.length_eq]
      exact Agrees.fold related (fun e he e' hee' hash =>
        (Agrees.ref hinner
          (fun a ha => World.meets_of_element hschema left (ha ▸ he)) hee' d).map _) _
  | map entries entries' left right distinct related =>
      rw [World.occurrencesIn_map hschema left]
      simp only [left, right, related.length_eq]
      exact (Agrees.fold related (fun e he e' hee' hash =>
        (Agrees.entry hinner
          (fun a ha => World.meets_of_entry hschema left he ha) hee' d).map _) _).map _
  | tensor t t' data left right dtype shape bytes bytes' =>
      rw [World.occurrencesIn_leaf hschema left nofun nofun]
      simp only [left, right]
      obtain ⟨h, hleft, hright⟩ : ∃ h, ofTensor w hash l t = .ok h ∧ ofTensor w hash r t' = .ok h := by
        simp [ofTensor, bytes, bytes', dtype, shape]
      rw [hleft, hright]
      exact Agrees.pure h
  | other same content =>
      obtain rfl := same
      cases hcontent : w.payload? l with
      | none =>
          have hmet : w.occurrencesIn n l d = [] := by
            simp [World.occurrencesIn, World.parts, hschema, hcontent]
          rw [hmet]
          exact Agrees.pure _
      | some c =>
          have hplain := content c hcontent
          rw [World.occurrencesIn_leaf hschema hcontent
            (fun _ h => by simp [h, World.plainClass?] at hplain)
            (fun _ h => by simp [h, World.plainClass?] at hplain)]
          cases c <;> first | exact Agrees.pure _ | cases hplain

/-- A variable that is hashed by its place is the same on both sides. -/
theorem eq_of_placed (hm : Matching w R plain) (hmem : Alike w R mapFree done m m')
    (hordered : mapFree = false → Ordered R (done ++ [(l, d)])) (hlr : R l r)
    (hl : w.isBindable l = true) (hunknown : m.found.lookup l = none)
    (hplaced : (mapFree || d) = false) : l = r := by
  obtain ⟨rfl, rfl⟩ := Bool.or_eq_false_iff.mp hplaced
  have hnew : (l, true) ∉ done := fun hdone =>
    Memory.not_knows hunknown (hmem.introduced rfl l hdone)
  exact (hm.oneToOne (hordered rfl done l [] rfl hnew) hlr hl hl).mp rfl

/-- A variable that can be renamed is hashed by its number. -/
theorem node_of_mapped (hmapped : (mapFree || d) = true) :
    inner.node w mapFree .variable hash x d m =
      .ok (combine hash m.seen, ⟨(x, combine hash m.seen) :: m.found, m.seen + 1⟩) := by
  simp only [Inner.node, if_pos hmapped]
  rfl

/-- Both traversals number a variable alike, or hash it by the same place. -/
theorem variable_agrees (hm : Matching w R plain) (hlr : R l r) (hvar : w.isVariable l = true)
    (hl : w.isBindable l = true) (hmem : Alike w R mapFree done m m')
    (hordered : mapFree = false → Ordered R (done ++ [(l, d)]))
    (hunknown : m.found.lookup l = none) :
    ∃ h m₁ m₁', inner.node w mapFree .variable hash l d m = .ok (h, m₁) ∧
      inner.node w mapFree .variable hash r d m' = .ok (h, m₁') ∧
        Alike w R mapFree (done ++ [(l, d)]) m₁ m₁' := by
  by_cases hmapped : (mapFree || d) = true
  · refine ⟨_, _, _, node_of_mapped hmapped, by rw [node_of_mapped hmapped, ← hmem.seen], ?_⟩
    refine (hmem.remember hlr hl (fun _ n e z hz => .inl ?_) rfl).extend fun _ x hx => ?_
    · cases n with
      | zero => cases hz
      | succ n =>
          rw [World.occurrencesWithin_succ, hvar] at hz
          exact (Prod.mk.inj (List.mem_singleton.mp hz)).1
    · cases List.mem_singleton.mp hx
      exact List.mem_cons_self
  · simp only [Inner.node, if_neg hmapped]
    obtain ⟨hfree, hplaced⟩ := Bool.or_eq_false_iff.mp (Bool.not_eq_true _ ▸ hmapped)
    obtain rfl := eq_of_placed hm hmem hordered hlr hl hunknown (by simp [hfree, hplaced])
    refine ⟨_, m, m', rfl, rfl, hmem.extend fun _ x hx => ?_⟩
    have heq := (Prod.mk.inj (List.mem_singleton.mp hx)).2
    simp [hplaced] at heq

/-- What is defined below a graph node is remembered when the node is. -/
theorem Agrees.graphNode (hm : Matching w R plain)
    (hplain : ∀ {v v'}, plain v v' → ofPlain v = ofPlain v')
    (hinner : InnerAgrees w R mapFree n inner l) (hlr : R l r)
    (hnested : w.NestedWithin (n + 1) l) (hschema : w.schemaOf? l ≠ none)
    (hvar : w.isVariable l = false) (hl : w.isBindable l = true) (hash : UInt64) (d : Bool) :
    Agrees w R mapFree (inner.node w mapFree .graph hash l d) (inner.node w mapFree .graph hash r d)
      (w.occurrencesWithin (n + 1) l d) := by
  intro done m m' hmem hordered
  have hmet : w.occurrencesWithin (n + 1) l d = w.occurrencesIn n l d := by
    rw [World.occurrencesWithin_succ, hvar]
    rfl
  rw [hmet] at hordered ⊢
  obtain ⟨h, m₁, m₁', hc, hc', hm₁⟩ :=
    Agrees.attrs hm hplain hinner hlr hschema hash d done m m' hmem hordered
  unfold Inner.node
  refine ⟨h, _, _, (bind_run hc).trans rfl, (bind_run hc').trans rfl,
    hm₁.remember hlr hl (fun hfree k e z hz => .inr ?_) hm₁.seen⟩
  rw [World.occurrencesWithin_of_reflected (e := d) hschema hvar] at hz
  have hz := hmet ▸ World.mem_occurrencesWithin hnested hz
  exact hm₁.introduced hfree z (List.mem_append_right _ hz)

/-- Objects of a reflected class that are not remembered. -/
theorem node_agrees (hm : Matching w R plain)
    (hplain : ∀ {v v'}, plain v v' → ofPlain v = ofPlain v')
    (hinner : InnerAgrees w R mapFree n inner l) (hlr : R l r)
    (hnested : w.NestedWithin (n + 1) l) {schema : Schema} (hschema : w.schemaOf? l = some schema)
    (hmem : Alike w R mapFree done m m')
    (hordered : mapFree = false → Ordered R (done ++ w.occurrencesWithin (n + 1) l d))
    (hunknown : m.found.lookup l = none) :
    ∃ h m₁ m₁', inner.node w mapFree schema.kind hash l d m = .ok (h, m₁) ∧
      inner.node w mapFree schema.kind hash r d m' = .ok (h, m₁') ∧
        Alike w R mapFree (done ++ w.occurrencesWithin (n + 1) l d) m₁ m₁' := by
  have hreflected : w.schemaOf? l ≠ none := by simp [hschema]
  have hvar := World.isVariable_eq hschema
  have hl : w.isBindable l = decide (schema.kind ≠ .tree) := by
    simp [World.isBindable, hschema]
  cases hkind : schema.kind with
  | tree =>
      rw [hkind] at hvar
      rw [World.occurrencesWithin_succ, hvar] at hordered ⊢
      exact Agrees.attrs hm hplain hinner hlr hreflected hash d done m m' hmem hordered
  | graph =>
      rw [hkind] at hvar hl
      exact Agrees.graphNode hm hplain hinner hlr hnested hreflected hvar hl hash d done m m' hmem
        hordered
  | «variable» =>
      rw [hkind] at hvar hl
      rw [World.occurrencesWithin_succ, hvar] at hordered ⊢
      exact variable_agrees hm hlr hvar hl hmem hordered hunknown

end Parts

/-- What is remembered is the hash. -/
theorem objectWithin_of_known (hknown : m.found.lookup x = some hash) :
    (objectWithin w mapFree (n + 1) : Inner (Except Fault)) x d m = .ok (hash, m) := by
  have hget : (get : StateT Memory (Except Fault) Memory) m = .ok (m, m) := rfl
  rw [objectWithin, bind_run hget, hknown]
  rfl

/-- An object of which no hash is remembered is hashed in the way of its kind. -/
theorem objectWithin_of_unknown (hunknown : m.found.lookup x = none) :
    (objectWithin w mapFree (n + 1) : Inner (Except Fault)) x d m =
      (match w.schemaOf? x with
        | some schema => Inner.node (objectWithin w mapFree n) w mapFree schema.kind
            ((w.types.hashOf (w.typeIndex x)).toOption.getD 0) x d
        | none => Inner.content (objectWithin w mapFree n) w
            ((w.types.hashOf (w.typeIndex x)).toOption.getD 0) x d) m := by
  have hget : (get : StateT Memory (Except Fault) Memory) m = .ok (m, m) := rfl
  rw [objectWithin, bind_run hget, hunknown]
  cases w.schemaOf? x <;> rfl

/-- Related objects have the same hash. -/
theorem agrees_objectWithin {plain : Value → Value → Prop} (hm : Matching w R plain)
    (hplain : ∀ {v v'}, plain v v' → ofPlain v = ofPlain v') (n : Nat) :
    ∀ l r d, w.NestedWithin n l → R l r →
      Agrees w R mapFree (objectWithin w mapFree n l d) (objectWithin w mapFree n r d)
        (w.occurrencesWithin n l d) := by
  induction n with
  | zero => exact fun _ _ _ hnested => hnested.elim
  | succ n ih =>
      intro l r d hnested hlr done m m' hmem hordered
      have hlookup := hmem.lookup hm hlr
      cases hknown : m.found.lookup l with
      | some h =>
          rw [hknown] at hlookup
          exact ⟨h, m, m', objectWithin_of_known hknown, objectWithin_of_known hlookup.symm,
            hmem.extend fun hfree x hx =>
              hmem.below hfree l (Memory.knows_of_lookup hknown) _ _ x hx⟩
      | none =>
          rw [hknown] at hlookup
          have hinner : InnerAgrees w R mapFree n (objectWithin w mapFree n) l :=
            fun a a' e ha haa' => ih a a' e (hnested a (World.refers_of_meets ha)) haa'
          rw [objectWithin_of_unknown hknown, objectWithin_of_unknown hlookup.symm,
            ← hm.schemaOf? hlr, ← hm.typeIndex hlr]
          cases hschema : w.schemaOf? l with
          | some schema =>
              exact node_agrees hm hplain hinner hlr hnested hschema hmem hordered hknown
          | none =>
              rw [World.occurrencesWithin_succ, World.not_isVariable hschema] at hordered ⊢
              exact Agrees.content hm hinner hlr hschema _ d done m m' hmem hordered

end Hashing

/-- Graphs that a matching relation relates have the same hash.  Unless free variables are mapped,
every variable that is used before it is defined has to be the same in both. -/
theorem structuralHash_of_matching {κ : Type} {w : World κ} {R : ObjId → ObjId → Prop}
    {plain : Value → Value → Prop} {mapFree : Bool} {left right : Ref} (hm : Matching w R plain)
    (hplain : ∀ {v v'}, plain v v' → Hashing.ofPlain v = Hashing.ofPlain v')
    (hordered : mapFree = false → Ordered R (w.occurrences left))
    (hacyclic : w.Acyclic left) (hrel : RefRel R left right) :
    ∃ h, structuralHash w left mapFree = .ok h ∧ structuralHash w right mapFree = .ok h := by
  cases left with
  | none =>
      cases right with
      | none => exact ⟨0, rfl, rfl⟩
      | some r => exact hrel.elim
  | some l =>
      cases right with
      | none => exact hrel.elim
      | some r =>
          obtain ⟨h, m, m', hc, hc', -⟩ := Hashing.agrees_objectWithin hm hplain
            (w.heap.cells.size + 1) l r false (hacyclic l rfl).nestedWithin hrel [] _ _
            (.nil w R mapFree) fun hfree => by simpa [World.occurrences] using hordered hfree
          exact ⟨h, bind_eq_ok.mpr ⟨(h, m), hc, rfl⟩, bind_eq_ok.mpr ⟨(h, m'), hc', rfl⟩⟩

end ObjectRuntime
