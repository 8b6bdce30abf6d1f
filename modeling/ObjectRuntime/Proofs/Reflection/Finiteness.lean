import ObjectRuntime.Proofs.Reflection.Agreement
import ObjectRuntime.Proofs.Reflection.Copies
set_option autoImplicit false

/-!
# Numbers that are not finite

Floating point numbers are equal if their difference is small.  The difference of an infinite number
and the same is not a number, so such a number is not equal to itself, and a comparison that finds no
difference has met finite numbers only.  Two graphs that match and have no object in common are
therefore equal if and only if the numbers in them are finite (`structuralEqual_iff_finiteFloats`).
-/

namespace ObjectRuntime

open World (Matching RefRel SameValue)

namespace Equality

variable {κ α : Type} {w : World κ} {R : ObjId → ObjId → Prop} {b b' : Binding} {l r a x : ObjId}
  {mapFree d : Bool} {inner : Inner (Except Fault)} {left right : Ref}

/-- Numbers that are equal to the same numbers are finite. -/
theorem isFinite_of_plainEqual {x : Double} {v : Value} (hsame : SameValue (.float x) v)
    (h : plainEqual (.float x) v = true) : x.IsFinite := by
  cases v with
  | float y =>
      by_contra hx
      have hdiffer : ((x.sub y).abs).le tolerance = false := by
        rw [Double.sub_of_not_finite hsame hx]
        decide +kernel
      exact Bool.false_ne_true (hdiffer.symm.trans h)
  | _ => cases hsame

/-- What is bound is related, and the numbers below it are finite. -/
def Checked (w : World κ) (R : ObjId → ObjId → Prop) (b : Binding) : Prop :=
  ∀ p ∈ b, (R p.1 p.2 ∧ w.isBindable p.1 = true) ∧ w.FiniteFloats (some p.1)

/-- A comparison of related objects that finds no difference has met finite numbers only. -/
def Examines (w : World κ) (R : ObjId → ObjId → Prop)
    (objects : ObjId → ObjId → Bool → Comparison (Except Fault)) : Prop :=
  ∀ {l r d b b'}, Checked w R b → R l r → Succeeds (objects l r d) b b' →
    Checked w R b' ∧ w.FiniteFloats (some l)

theorem finiteFloats_none (w : World κ) : w.FiniteFloats none := by
  rintro a ⟨top, htop, -⟩
  cases htop

/-- The numbers of a graph are finite if those of its root are and those below it. -/
theorem finiteFloats_some
    (hown : ∀ attr ∈ w.shown l, ∀ x, attr.value = .float x → x.IsFinite)
    (hbelow : ∀ a, w.Meets l a → w.FiniteFloats (some a)) : w.FiniteFloats (some l) := by
  intro a ha
  rcases World.met_cases ha with rfl | ⟨c, hc, hca⟩
  · exact hown
  · exact hbelow c hc a hca

/-- An object that is not reflected has no numbers of its own. -/
theorem finiteFloats_of_unreflected (hschema : w.schemaOf? l = none)
    (hbelow : ∀ a, w.Meets l a → w.FiniteFloats (some a)) : w.FiniteFloats (some l) := by
  refine finiteFloats_some (fun attr hattr => ?_) hbelow
  simp [World.shown, World.attrs, hschema, Except.toOption] at hattr

/-- There are no numbers in an object that is neither reflected nor an array or a map. -/
theorem finiteFloats_of_leaf {content : Payload κ} (hschema : w.schemaOf? l = none)
    (hcontent : w.payload? l = some content) (harray : ∀ elems, content ≠ .array elems)
    (hmap : ∀ entries, content ≠ .map entries) : w.FiniteFloats (some l) :=
  finiteFloats_of_unreflected hschema fun _ ha =>
    absurd ha (World.not_meets hschema hcontent harray hmap)

/-- There are no numbers in a string. -/
theorem finiteFloats_of_text {s : String} (h : w.text? l = some s) : w.FiniteFloats (some l) := by
  have hcontent := World.payload?_of_text? h
  have hshown := World.shown_of_values_nil hcontent (World.values_text · s)
  refine finiteFloats_some (fun attr hattr => ?_) fun a ha => ?_
  · rw [hshown] at hattr
    cases hattr
  · rcases World.meets_cases ha with ⟨-, attr, hattr, -⟩ |
      ⟨-, ⟨elems, helems, -⟩ | ⟨entries, hentries, -⟩⟩
    · rw [hshown] at hattr
      cases hattr
    · cases hcontent.symm.trans helems
    · cases hcontent.symm.trans hentries

/-- Parts that are compared one after another. -/
theorem all_examines {f : α → Comparison (Except Fault)} (Found : α → Prop) {as : List α}
    (hf : ∀ a ∈ as, ∀ b b', Checked w R b → Succeeds (f a) b b' → Checked w R b' ∧ Found a)
    (hb : Checked w R b) (h : Succeeds (all f as) b b') : Checked w R b' ∧ ∀ a ∈ as, Found a := by
  obtain ⟨hb', -, hfound⟩ := all_keeps (R := fun _ _ => True) (fun a _ => Found a)
    (fun _ => trivial) (fun _ _ => trivial) (fun hfound _ => hfound) as b
    (fun a ha b₁ b₂ hb₁ h₁ => ⟨(hf a ha b₁ b₂ hb₁ h₁).1, trivial, (hf a ha b₁ b₂ hb₁ h₁).2⟩) hb h
  exact ⟨hb', hfound⟩

section Parts

variable (hinner : Examines w R inner.objects)
include hinner

theorem refs_examines (hb : Checked w R b) (hrel : RefRel R left right)
    (h : Succeeds (inner.refs left right d) b b') :
    Checked w R b' ∧ w.FiniteFloats left := by
  rcases Inner.refs_inv h with ⟨rfl, rfl, rfl⟩ | ⟨a, a', rfl, rfl, h⟩
  · exact ⟨hb, finiteFloats_none w⟩
  · exact hinner hb hrel h

theorem attrs_examines (hm : Matching w R SameValue) (hlr : R l r) {schema : Schema} (hschema : w.schemaOf? l = some schema)
    (hb : Checked w R b) (h : Succeeds (inner.attrs w l r) b b') :
    Checked w R b' ∧ w.FiniteFloats (some l) := by
  have hschema' := (hm.schemaOf? hlr).symm.trans hschema
  obtain ⟨ls, rs, hls, hrs, hlength, h⟩ := Inner.attrs_inv h
  obtain rfl := Except.ok.inj ((World.attrs_eq_shown hschema).symm.trans hls)
  obtain rfl := Except.ok.inj ((World.attrs_eq_shown hschema').symm.trans hrs)
  have hattrs := hm.attrs hlr (by simp [hschema])
  obtain ⟨hb', hfound⟩ := all_examines
    (fun p : Attr × Attr => (∀ x, p.1.value = .float x → x.IsFinite) ∧
      w.FiniteFloats p.1.value.object?)
    (fun p hp b₁ b₂ hb₁ h₁ => by
      obtain ⟨hrel, hsame⟩ := ((List.forall₂_iff_zip.mp hattrs).2 hp).value
      rcases Inner.values_inv (Inner.attr_inv h₁).2 with
        ⟨hnone, -, hequal, rfl⟩ | ⟨c, c', hc, hc', h₁⟩
      · refine ⟨hb₁, fun x hx => ?_, hnone ▸ finiteFloats_none w⟩
        have hsame := hsame hnone
        rw [hx] at hsame hequal
        exact isFinite_of_plainEqual hsame hequal
      · rw [hc, hc'] at hrel
        obtain ⟨hb₂, hfinite⟩ := hinner hb₁ hrel h₁
        refine ⟨hb₂, fun x hx => ?_, hc ▸ hfinite⟩
        rw [hx] at hc
        cases hc) hb h
  have hall : ∀ attr ∈ w.shown l, (∀ x, attr.value = .float x → x.IsFinite) ∧
      w.FiniteFloats attr.value.object? := by
    intro attr hattr
    obtain ⟨p, hp, rfl⟩ := exists_mem_zip_left hlength hattr
    exact hfound p hp
  refine ⟨hb', finiteFloats_some (fun attr hattr => (hall attr hattr).1) fun a ha => ?_⟩
  rcases World.meets_cases ha with ⟨-, attr, hattr, hvalue⟩ | ⟨hnone, -⟩
  · exact hvalue ▸ (hall attr hattr).2
  · rw [hschema] at hnone
    cases hnone

theorem elements_examines {ls rs : List Ref} (hschema : w.schemaOf? l = none)
    (hcontent : w.payload? l = some (.array ls)) (hrel : List.Forall₂ (RefRel R) ls rs)
    (hb : Checked w R b)
    (h : Succeeds (all (fun (p : Ref × Ref) => inner.refs p.1 p.2 d) (ls.zip rs)) b b') :
    Checked w R b' ∧ w.FiniteFloats (some l) := by
  obtain ⟨hlength, hzip⟩ := List.forall₂_iff_zip.mp hrel
  obtain ⟨hb', hfound⟩ := all_examines (fun p : Ref × Ref => w.FiniteFloats p.1)
    (fun p hp _ _ hb₁ h₁ => refs_examines hinner hb₁ (hzip hp) h₁) hb h
  refine ⟨hb', finiteFloats_of_unreflected hschema fun a ha => ?_⟩
  rcases World.meets_cases ha with ⟨hreflected, -⟩ | ⟨-, ⟨elems, helems, ha⟩ | ⟨_, hentries, -⟩⟩
  · exact absurd hschema hreflected
  · cases hcontent.symm.trans helems
    obtain ⟨p, hp, hpa⟩ := exists_mem_zip_left hlength ha
    exact hpa ▸ hfound p hp
  · cases hcontent.symm.trans hentries

variable (hm : Matching w R SameValue) (hapart : ∀ {a b}, R a b → a ≠ b)
include hm hapart

omit hinner hm in
/-- A key on both sides is a string or nothing. -/
theorem finiteFloats_of_key {k k' : Ref} (hk : World.KeyMatch w R k k') : w.FiniteFloats k := by
  obtain ⟨hrel, hk⟩ := hk
  cases k with
  | none => exact finiteFloats_none w
  | some x =>
      rcases hk with rfl | ⟨s, hs, -⟩
      · exact absurd rfl (hapart hrel)
      · exact finiteFloats_of_text hs

theorem entries_examines {ls rs : List (Ref × Ref)} (hschema : w.schemaOf? l = none)
    (hcontent : w.payload? l = some (.map ls))
    (hdistinct : rs.Pairwise fun e e' => w.sameKey e.1 e'.1 = false)
    (hrel : List.Forall₂ (World.EntryMatch w R) ls rs) (hb : Checked w R b)
    (h : Succeeds (all (inner.entry w rs d) ls) b b') :
    Checked w R b' ∧ w.FiniteFloats (some l) := by
  obtain ⟨hb', hfound⟩ := all_examines
    (fun e : Ref × Ref => w.FiniteFloats e.1 ∧ w.FiniteFloats e.2)
    (fun e he b₁ b₂ hb₁ h₁ => by
      obtain ⟨e', he', hkey, hvalue⟩ := exists_mem_of_forall₂_left hrel he
      obtain ⟨k, v, hfind, h₁⟩ := Inner.entry_inv h₁
      simp only [sameKey_keyFor_of_match hm (fun hp => (hb₁ _ hp).1) hkey] at hfind
      obtain rfl := Option.some.inj ((World.find?_entry hdistinct he').symm.trans hfind)
      obtain ⟨hb₂, hfinite⟩ := refs_examines hinner hb₁ hvalue h₁
      exact ⟨hb₂, finiteFloats_of_key hapart hkey, hfinite⟩) hb h
  refine ⟨hb', finiteFloats_of_unreflected hschema fun a ha => ?_⟩
  rcases World.meets_cases ha with ⟨hreflected, -⟩ | ⟨-, ⟨_, helems, -⟩ | ⟨es, hentries, e, he, ha⟩⟩
  · exact absurd hschema hreflected
  · cases hcontent.symm.trans helems
  · cases hcontent.symm.trans hentries
    rcases ha with ha | ha
    · exact ha ▸ (hfound e he).1
    · exact ha ▸ (hfound e he).2

theorem contents_examines (hlr : R l r) (hschema : w.schemaOf? l = none) (hb : Checked w R b)
    (h : Succeeds (inner.contents w l r d) b b') :
    Checked w R b' ∧ w.FiniteFloats (some l) := by
  have hmatch := hm.content hlr hschema
  rcases Inner.contents_inv h with ⟨s, hs, -, rfl⟩ | ⟨s, hs, -, rfl⟩ |
      ⟨ls, rs, hls, hrs, -, h⟩ | ⟨ls, rs, hls, hrs, -, h⟩ | ⟨s, t, hs, -, -, rfl⟩
  · exact ⟨hb, finiteFloats_of_leaf hschema hs nofun nofun⟩
  · exact ⟨hb, finiteFloats_of_leaf hschema hs nofun nofun⟩
  · cases hmatch with
    | array elems elems' left right related =>
        cases left.symm.trans hls
        cases right.symm.trans hrs
        exact elements_examines hinner hschema hls related hb h
    | other same => exact absurd same (hapart hlr)
    | text _ left | shape _ left | map _ _ left | tensor _ _ _ left => cases left.symm.trans hls
  · cases hmatch with
    | map entries entries' left right distinct related =>
        cases left.symm.trans hls
        cases right.symm.trans hrs
        exact entries_examines hinner hm hapart hschema hls distinct related hb h
    | other same => exact absurd same (hapart hlr)
    | text _ left | shape _ left | array _ _ left | tensor _ _ _ left => cases left.symm.trans hls
  · exact ⟨hb, finiteFloats_of_leaf hschema hs nofun nofun⟩

end Parts

/-- Comparisons of any depth examine the numbers that they meet. -/
theorem objectsWithin_examines (hm : Matching w R SameValue) (hapart : ∀ {a b}, R a b → a ≠ b)
    (depth : Nat) : Examines w R (objectsWithin w mapFree depth) := by
  induction depth with
  | zero => exact fun _ _ h => nomatch h
  | succ depth ih =>
      intro l r d b b' hb hlr h
      rcases objectsWithin_inv h with ⟨hbound, rfl⟩ | ⟨-, -, -, h⟩
      · exact ⟨hb, (hb _ (mem_of_lookup hbound)).2⟩
      rcases h with ⟨schema, hschema, h⟩ | ⟨hschema, ⟨heq, -⟩ | ⟨-, h⟩⟩
      · rcases Inner.nodes_inv h with ⟨heq, -, -⟩ | ⟨b₁, h, hend⟩
        · exact absurd heq (hapart hlr)
        obtain ⟨hb₁, hfinite⟩ := attrs_examines ih hm hlr hschema hb h
        rcases hend with ⟨hkind, rfl⟩ | ⟨-, rfl⟩
        · have hl : w.isBindable l = true := by simp [World.isBindable, hschema, hkind]
          exact ⟨List.forall_mem_cons.mpr ⟨⟨⟨hlr, hl⟩, hfinite⟩, hb₁⟩, hfinite⟩
        · exact ⟨hb₁, hfinite⟩
      · exact absurd heq (hapart hlr)
      · exact contents_examines ih hm hapart hlr hschema hb h

end Equality

section

variable {κ : Type} {w : World κ} {R : ObjId → ObjId → Prop} {mapFree : Bool} {left right : Ref}

/-- Matching graphs without common objects are equal only if the numbers in them are finite. -/
theorem finiteFloats_of_structuralEqual (hm : Matching w R SameValue)
    (hapart : ∀ {a b}, R a b → a ≠ b) (hrel : RefRel R left right)
    (h : structuralEqual w left right mapFree = .ok true) : w.FiniteFloats left := by
  obtain ⟨found, hfound, h⟩ := bind_eq_ok.mp h
  cases found with
  | none => exact nomatch h
  | some b =>
      have hnil : Equality.Checked w R [] := List.forall_mem_nil _
      exact (Equality.refs_examines (Equality.objectsWithin_examines hm hapart _) hnil hrel hfound).2

/-- Matching graphs without common objects are equal if and only if the numbers in them are finite,
where free variables are mapped. -/
theorem structuralEqual_iff_finiteFloats (hm : Matching w R SameValue)
    (hapart : ∀ {a b}, R a b → a ≠ b) (hacyclic : w.Acyclic left) (hrel : RefRel R left right) :
    structuralEqual w left right true = .ok true ↔ w.FiniteFloats left := by
  refine ⟨finiteFloats_of_structuralEqual hm hapart hrel, fun hfinite => ?_⟩
  have hequal : Matching w (fun a b => R a b ∧ w.Met left a)
      fun v v' => Equality.plainEqual v v' = true :=
    (hm.restrict left).imp_plain fun hab attr hattr _ hplain hsame =>
      Equality.plainEqual_of_sameValue hsame hplain (hfinite _ hab.2 attr hattr)
  exact structuralEqual_of_matching hequal id (fun hfree : true = false => nomatch hfree) hacyclic
    (hrel.mono fun a b ha _ hab => ⟨hab, a, ha, .refl⟩)

end

end ObjectRuntime
